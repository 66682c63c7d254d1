import Zeppelin.Reclaim.RunTree

namespace Zeppelin.Reclaim
open List

def DurableRun.stream (run : DurableRun) : Stream := ⟨run.binding,run.count,run.digest⟩

structure RunOk (digests : Digests) (pages : Pages) (run : DurableRun) (ids : List ℕ) : Prop where
  holds : ∃ leaves,leaves.flatten = ids ∧ Holds pages run.stream run.height 0 run.root leaves
  height_lt : run.height < maxRunLevels
  sound : Sound ids
  count : run.count = ids.length
  digest : run.digest = digests.ids ids
  first : ids.head? = some run.first
  last : ids.getLast? = some run.last

variable {more : Pages} {start : ℕ} {leaves : Leaves}

theorem RunOk.mono {digests : Digests} {pages : Pages} (hmore : pages <+: more)
    {run : DurableRun} {ids : List ℕ} (h : RunOk digests pages run ids) :
    RunOk digests more run ids := by
  obtain ⟨leaves,hids,hholds⟩ := h.holds
  exact ⟨⟨leaves,hids,hholds.mono hmore⟩,h.height_lt,h.sound,h.count,h.digest,h.first,h.last⟩

theorem chain_forall {P : ℕ → DurableRun → Leaves → Prop} {Q : List ℕ → Prop}
    (himp : ∀ start child mine,P start child mine → ∀ leaf ∈ mine,Q leaf)
    {children : List DurableRun} (h : Chain P start children leaves) : ∀ leaf ∈ leaves,Q leaf := by
  induction children generalizing start leaves with
  | nil =>
    obtain rfl : leaves = [] := h
    simp
  | cons child children ih =>
    obtain ⟨mine,rest,rfl,hchild,hrest⟩ := h
    intro leaf hleaf
    rcases mem_append.mp hleaf with hleaf | hleaf
    · exact himp _ _ _ hchild leaf hleaf
    · exact ih hrest leaf hleaf

theorem Holds.leaf_ne_nil {pages : Pages} {stream : Stream} {height : ℕ} :
    ∀ {start reference : ℕ} {leaves : Leaves},Holds pages stream height start reference leaves →
      ∀ leaf ∈ leaves,leaf ≠ [] := by
  induction height with
  | zero =>
    rintro start reference leaves ⟨ids,rfl,hne,-,-⟩ leaf hleaf
    rw [mem_singleton.mp hleaf]
    exact hne
  | succ height ih =>
    rintro start reference leaves ⟨-,-,children,-,-,-,-,hchain⟩
    exact chain_forall (fun _ _ _ hchild => ih hchild.below) hchain

theorem length_le_flatten (h : ∀ leaf ∈ leaves,leaf ≠ []) :
    leaves.length ≤ leaves.flatten.length := by
  induction leaves with
  | nil => simp
  | cons leaf leaves ih =>
    obtain ⟨hleaf,hrest⟩ := forall_mem_cons.mp h
    have := length_pos_iff.mpr hleaf
    have := ih hrest
    simp only [flatten_cons,length_append,length_cons]
    omega

def FrameOk (pages : Pages) (stream : Stream) (frame : CursorFrame) (start : ℕ) (leaves : Leaves) :
    Prop :=
  match frame.height with
  | 0 => Holds pages stream 0 start frame.reference leaves
  | height+1 => ∃ count digest children,
    pages[frame.reference]? =
        some ⟨stream.binding,.index (height+1) count digest children⟩ ∧
      children ≠ [] ∧ children.length ≤ mergeFanIn ∧ frame.nextChild ≤ children.length ∧
        (∀ child ∈ children,child.root < frame.reference) ∧
          Chain (ChildOf (Holds pages stream height) stream height) start
            (children.drop frame.nextChild) leaves

def Stack (pages : Pages) (stream : Stream) : ℕ → List CursorFrame → Leaves → Prop
  | _,[],leaves => leaves = []
  | start,frame::below,leaves => ∃ mine rest,leaves = mine++rest ∧
    FrameOk pages stream frame start mine ∧ below.length+1+frame.height ≤ maxRunLevels ∧
      (∀ other ∈ below,frame.reference < other.reference) ∧
        Stack pages stream (start+mine.length) below rest

theorem frameOk_of_holds {pages : Pages} {stream : Stream} {height reference : ℕ}
    (h : Holds pages stream height start reference leaves) :
    FrameOk pages stream ⟨reference,0,height⟩ start leaves := by
  cases height with
  | zero => exact h
  | succ height =>
    obtain ⟨count,digest,children,hpage,hne,hfan,hroots,hchain⟩ := h
    exact ⟨count,digest,children,hpage,hne,hfan,Nat.zero_le _,hroots,hchain⟩

theorem FrameOk.mono {pages : Pages} {stream : Stream} (hmore : pages <+: more)
    {frame : CursorFrame}
    (h : FrameOk pages stream frame start leaves) : FrameOk more stream frame start leaves := by
  obtain ⟨reference,nextChild,height⟩ := frame
  cases height with
  | zero => exact Holds.mono hmore h
  | succ height =>
    obtain ⟨count,digest,children,hpage,hne,hfan,hnext,hroots,hchain⟩ := h
    exact ⟨count,digest,children, Collections.getElem?_of_isPrefix hmore hpage,hne,hfan,hnext,hroots,
      hchain.imp fun _ _ _ hchild => hchild.mono hmore⟩

theorem Stack.mono {pages : Pages} {stream : Stream} (hmore : pages <+: more)
    {frames : List CursorFrame}
    (h : Stack pages stream start frames leaves) : Stack more stream start frames leaves := by
  induction frames generalizing start leaves with
  | nil => exact h
  | cons frame below ih =>
    obtain ⟨mine,rest,hleaves,hframe,hdepth,hreferences,hbelow⟩ := h
    exact ⟨mine,rest,hleaves,hframe.mono hmore,hdepth,hreferences,ih hbelow⟩

/-- `here` is left of the open leaf, `ahead` are the leaves behind it. -/
structure ReaderOk (digests : Digests) (pages : Pages) (reader : Reader) (ahead : Leaves)
    (here : List ℕ) : Prop where
  pending : reader.done = false
  stack : Stack pages reader.run.stream reader.expectedOrdinal reader.frames ahead
  opened : reader.leaf = true → ∃ ids,
    reader.page = some ⟨reader.run.binding,
        .leaf ids (reader.expectedOrdinal-1) reader.run.count reader.run.digest⟩ ∧
      ids ≠ [] ∧ ids.length ≤ spillChunkLimit ∧ reader.leafCount = ids.length ∧
        here = ids.drop reader.leafIndex
  closed : reader.leaf = false → here = []
  emitted : reader.emitted = reader.hash.length
  previous : reader.previous = reader.hash.getLast?
  ascending : (reader.hash++(here++ahead.flatten)).Pairwise (· < ·)
  count : reader.run.count = (reader.hash++(here++ahead.flatten)).length
  digest : reader.run.digest = digests.ids (reader.hash++(here++ahead.flatten))
  count_lt : reader.run.count < 2^64
  ordinals : reader.expectedOrdinal+ahead.length ≤ reader.run.count

section Reader

variable {digests : Digests} {pages : Pages} {reader : Reader} {ahead : Leaves} {here : List ℕ}

theorem ReaderOk.mono {more : Pages} (hmore : pages <+: more)
    (h : ReaderOk digests pages reader ahead here) : ReaderOk digests more reader ahead here :=
  ⟨h.pending,h.stack.mono hmore,h.opened,h.closed,h.emitted,h.previous,h.ascending,h.count,
    h.digest,h.count_lt,h.ordinals⟩

theorem validateLeafHeader_ok {run : DurableRun} {ids : List ℕ} {ordinal : ℕ} (hne : ids ≠ [])
    (hcount : ids.length ≤ spillChunkLimit) :
    validateLeafHeader ⟨run.binding,.leaf ids ordinal run.count run.digest⟩ ordinal run =
      .ok ids := by
  have hlength:=length_pos_iff.mpr hne
  rw [validateLeafHeader]
  simp only [ne_eq,not_true_eq_false,if_false,or_false]
  rw [if_neg (by omega)]

theorem takeId_ok {id : ℕ} {rest : List ℕ} (h : ReaderOk digests pages reader ahead (id::rest)) :
    reader.leaf = true ∧ reader.leafIndex < reader.leafCount ∧
      ∃ next,takeId reader = .ok (id,next) ∧ ReaderOk digests pages next ahead rest := by
  have hleaf : reader.leaf = true := by
    by_contra hclosed
    cases h.closed (by simpa using hclosed)
  obtain ⟨ids,hpage,hne,hlimit,hcount,hhere⟩ := h.opened hleaf
  have hindex : ids[reader.leafIndex]? = some id := by
    rw [← head?_drop,← hhere]
    rfl
  have hlt : reader.leafIndex < ids.length := (List.getElem?_eq_some_iff.mp hindex).1
  have hrest : rest = ids.drop (reader.leafIndex+1) := by
    rw [← tail_drop,← hhere]
    rfl
  have hprevious : ¬ (reader.previous.any fun previous => decide (previous ≥ id)) = true := by
    rw [h.previous,Option.any_eq_true]
    rintro ⟨previous,hmem,hge⟩
    have := (pairwise_append.mp h.ascending).2.2 previous (mem_of_getLast? hmem) id
      mem_cons_self
    have := of_decide_eq_true hge
    omega
  have hadd : addCount reader.emitted 1 = .ok (reader.emitted+1) := by
    apply addCount_of_lt
    have hlt:=h.count_lt
    rw [h.count,length_append,cons_append,length_cons] at hlt
    rw [h.emitted]
    omega
  have hmoved : reader.hash++(id::rest++ahead.flatten) =
      reader.hash++[id]++(rest++ahead.flatten) := by simp
  refine ⟨hleaf,hcount ▸ hlt,{ reader with
    previous := some id,hash := reader.hash++[id],emitted := reader.emitted+1,
    leafIndex := reader.leafIndex+1 },?_,?_⟩
  · rw [takeId,hpage]
    simp only [validateLeafHeader_ok hne hlimit,ok_bind,hindex,failIf_neg _ hprevious,hadd]
    rfl
  · refine ⟨h.pending,h.stack,?_,?_,?_,?_,?_,?_,?_,h.count_lt,h.ordinals⟩
    · intro _
      exact ⟨ids,hpage,hne,hlimit,hcount,hrest⟩
    · intro hclosed
      rw [hleaf] at hclosed
      cases hclosed
    · simp [h.emitted]
    · simp
    · rw [← hmoved]
      exact h.ascending
    · rw [← hmoved]
      exact h.count
    · rw [← hmoved]
      exact h.digest

theorem nextFrom_take {id : ℕ} {rest : List ℕ} (fuel : ℕ)
    (h : ReaderOk digests pages reader ahead (id::rest)) :
    ∃ next,nextFrom digests pages (fuel+1) reader = .ok (some id,next) ∧
      ReaderOk digests pages next ahead rest := by
  obtain ⟨hleaf,hindex,next,htake,hnext⟩ := takeId_ok h
  refine ⟨next,?_,hnext⟩
  rw [nextFrom,if_pos hleaf,if_pos hindex,htake]
  rfl

variable {frame : CursorFrame} {below : List CursorFrame}

theorem descend_leaf
    (h : ReaderOk digests pages reader ahead []) (hframes : reader.frames = frame::below)
    (hheight : frame.height = 0) :
    ∃ next id rest others,descend pages reader frame below = .ok next ∧
      ReaderOk digests pages next others (id::rest) ∧
        ahead.flatten = id::rest++others.flatten := by
  have hstack:=h.stack
  rw [hframes] at hstack
  obtain ⟨mine,others,rfl,hframe,-,-,hbelow⟩ := hstack
  unfold FrameOk at hframe
  rw [hheight] at hframe
  obtain ⟨ids,rfl,hne,hlimit,hpage⟩ := hframe
  obtain ⟨id,rest,rfl⟩ := exists_cons_of_ne_nil hne
  have hordinals:=h.ordinals
  rw [length_append,length_singleton] at hordinals
  have hadd : addCount reader.expectedOrdinal 1 = .ok (reader.expectedOrdinal+1) := by
    apply addCount_of_lt
    have := h.count_lt
    omega
  have hread : readPage pages frame.reference = .ok ⟨reader.run.binding,
      .leaf (id::rest) reader.expectedOrdinal reader.run.count reader.run.digest⟩ := by
    rw [readPage,hpage]
    rfl
  have hflatten : ([id::rest]++others).flatten = id::rest++others.flatten := by simp
  refine ⟨{ reader with
    page := some ⟨reader.run.binding,
      .leaf (id::rest) reader.expectedOrdinal reader.run.count reader.run.digest⟩,
    frames := below,leaf := true,leafIndex := 0,leafCount := (id::rest).length,
    expectedOrdinal := reader.expectedOrdinal+1 },id,rest,others,?_,?_,hflatten⟩
  · rw [descend,hread]
    simp only [ok_bind, validatePrefix,failIf_neg _ (not_not.mpr rfl),
      failIf_neg _ (not_not.mpr hheight),validateLeafHeader_ok hne hlimit,hadd]
    rfl
  · refine ⟨h.pending,hbelow,?_,?_,h.emitted,h.previous,?_,?_,?_,h.count_lt,?_⟩
    · intro _
      exact ⟨id::rest,rfl,hne,hlimit,rfl,rfl⟩
    · intro hclosed
      cases hclosed
    · rw [← hflatten]
      exact h.ascending
    · rw [← hflatten]
      exact h.count
    · rw [← hflatten]
      exact h.digest
    · simp only
      omega

variable {height : ℕ} {frames : List CursorFrame}

theorem descend_index (h : ReaderOk digests pages reader ahead []) (hleaf : reader.leaf = false)
    (hframes : reader.frames = frame::below) (hheight : frame.height = height+1) :
    (∃ next,descend pages reader frame below = .ok next ∧ next.leaf = false ∧
      next.frames = below ∧ ReaderOk digests pages next ahead [] ∧
        ∀ mine,FrameOk pages reader.run.stream frame reader.expectedOrdinal mine → mine = []) ∨
    ∃ next child rest,descend pages reader frame below = .ok next ∧ next.leaf = false ∧
      next.frames = child::rest ∧ child.height = height ∧ ReaderOk digests pages next ahead [] ∧
        ∃ mine,FrameOk pages next.run.stream child next.expectedOrdinal mine ∧ mine ≠ [] := by
  have hstack:=h.stack
  rw [hframes] at hstack
  obtain ⟨mine,others,rfl,hframe,hdepth,hreferences,hbelow⟩ := hstack
  unfold FrameOk at hframe
  rw [hheight] at hframe
  obtain ⟨count,digest,children,hpage,hne,hfan,hnext,hroots,hchain⟩ := hframe
  have hpositive:=length_pos_iff.mpr hne
  have hread : readPage pages frame.reference = .ok ⟨reader.run.binding,
      .index (height+1) count digest children⟩ := by
    rw [readPage,hpage]
    rfl
  have hgeometry : ¬ (children.length = 0 ∨ children.length > mergeFanIn ∨
      height+1 ≠ frame.height ∨ frame.nextChild > children.length) := by omega
  rcases Nat.lt_or_ge frame.nextChild children.length with hlt | hge
  · right
    obtain ⟨child,hchild⟩ : ∃ child,children[frame.nextChild]? = some child :=
      ⟨_,getElem?_eq_getElem hlt⟩
    have hmem : child ∈ children := mem_of_getElem? hchild
    have hdrop : children.drop frame.nextChild = child::children.drop (frame.nextChild+1) := by
      rw [← getElem_cons_drop hlt]
      rw [getElem?_eq_getElem hlt] at hchild
      rw [Option.some.inj hchild]
    rw [hdrop] at hchain
    obtain ⟨first,behind,rfl,hfirst,hbehind⟩ := hchain
    have hdecode : decodeChild (height+1) children frame.nextChild =
        .ok { child with height := height } := by
      rw [decodeChild,if_neg (by omega),hchild]
      rfl
    have hcycle : ¬ (({ frame with nextChild := frame.nextChild+1 }::below).any
        fun ancestor => ancestor.reference = child.root) = true := by
      simp only [any_eq_true,decide_eq_true_eq,not_exists,not_and]
      intro ancestor hancestor heq
      have hroot:=hroots child hmem
      rcases mem_cons.mp hancestor with rfl | hin
      · simp only at heq
        omega
      · have := hreferences ancestor hin
        omega
    refine ⟨{ reader with
      page := some ⟨reader.run.binding,.index (height+1) count digest children⟩,
      frames := ⟨child.root,0,height⟩::
        { frame with nextChild := frame.nextChild+1 }::below },
      ⟨child.root,0,height⟩,_,?_,hleaf,rfl,rfl,?_,?_⟩
    · have hlevels : ¬ (height+1 ≠ height+1 ∨
          ({ frame with nextChild := frame.nextChild+1 }::below).length = maxRunLevels) := by
        simp only [length_cons,ne_eq,not_true_eq_false,false_or]
        omega
      rw [descend,hread]
      simp only [ok_bind, validatePrefix,failIf_neg _ (not_not.mpr rfl)]
      rw [if_neg hgeometry,if_neg (by omega),hdecode]
      simp only [ok_bind]
      rw [failIf_neg _ hlevels,ok_bind,failIf_neg _ hcycle]
      rfl
    · refine ⟨h.pending,?_,fun hopen => ?_,fun _ => rfl,h.emitted,h.previous,h.ascending,
        h.count,h.digest,h.count_lt,h.ordinals⟩
      · refine ⟨first,behind++others,append_assoc ..,frameOk_of_holds hfirst.below,?_,?_,
          behind,others,rfl,?_,?_,hreferences,?_⟩
        · simp only [length_cons]
          omega
        · intro other hother
          rcases mem_cons.mp hother with rfl | hin
          · exact hroots child hmem
          · exact (hroots child hmem).trans (hreferences other hin)
        · unfold FrameOk
          simp only [hheight]
          exact ⟨count,digest,children,hpage,hne,hfan,hlt,hroots,hbehind⟩
        · exact hdepth
        · rw [Nat.add_assoc,← length_append]
          exact hbelow
      · rw [hleaf] at hopen
        cases hopen
    · refine ⟨first,frameOk_of_holds hfirst.below,fun hempty => hfirst.ne_nil ?_⟩
      rw [hempty]
      rfl
  · left
    have hend : frame.nextChild = children.length := Nat.le_antisymm hnext hge
    rw [hend,drop_length] at hchain
    obtain rfl : mine = [] := hchain
    refine ⟨{ reader with
      page := some ⟨reader.run.binding,.index (height+1) count digest children⟩,
      frames := below },?_,hleaf,rfl,?_,?_⟩
    · rw [descend,hread]
      simp only [ok_bind, validatePrefix,failIf_neg _ (not_not.mpr rfl)]
      rw [if_neg hgeometry,if_pos hend]
    rotate_left
    · intro mine hmine
      unfold FrameOk at hmine
      rw [hheight] at hmine
      obtain ⟨count',digest',stored,hstored,-,-,-,-,hrest⟩ := hmine
      rw [hpage] at hstored
      cases hstored
      rw [hend,drop_length] at hrest
      exact hrest
    · refine ⟨h.pending,hbelow,fun hopen => ?_,fun _ => rfl,h.emitted,h.previous,h.ascending,
        h.count,h.digest,h.count_lt,h.ordinals⟩
      rw [hleaf] at hopen
      cases hopen

theorem nextFrom_descend {next : Reader}
    (fuel : ℕ) (hleaf : reader.leaf = false) (hframes : reader.frames = frame::below)
    (h : descend pages reader frame below = .ok next) :
    nextFrom digests pages (fuel+1) reader = nextFrom digests pages fuel next := by
  rw [nextFrom,hleaf,hframes]
  simp only [Bool.false_eq_true,if_false,h,ok_bind]

def Takes (digests : Digests) (pages : Pages) (result : Except ReclaimError (Option ℕ × Reader))
    (ids : List ℕ) : Prop :=
  match ids with
  | [] => ∃ next,result = .ok (none,next) ∧ next.done = true
  | id::rest => ∃ next ahead here,result = .ok (some id,next) ∧
    ReaderOk digests pages next ahead here ∧ here++ahead.flatten = rest

theorem nextFrom_loaded :
    ∀ {reader : Reader} {ahead : Leaves} {frame : CursorFrame} {below : List CursorFrame} {fuel : ℕ}
      {mine : Leaves},
      ReaderOk digests pages reader ahead [] → reader.leaf = false →
      reader.frames = frame::below → frame.height = height →
      FrameOk pages reader.run.stream frame reader.expectedOrdinal mine → mine ≠ [] →
      height+2 ≤ fuel → Takes digests pages (nextFrom digests pages fuel reader) ahead.flatten := by
  induction height with
  | zero =>
    intro reader ahead frame below fuel mine h hleaf hframes hheight _ _ hfuel
    obtain ⟨rest,rfl⟩ : ∃ rest,fuel = rest+1+1 := ⟨fuel-2,by omega⟩
    obtain ⟨next,id,ids,others,hdescend,hnext,hflatten⟩ := descend_leaf h hframes hheight
    obtain ⟨after,hafter,hok⟩ := nextFrom_take rest hnext
    rw [nextFrom_descend _ hleaf hframes hdescend,hafter,hflatten]
    exact ⟨after,others,ids,rfl,hok,rfl⟩
  | succ height ih =>
    intro reader ahead frame below fuel mine h hleaf hframes hheight hframe hne hfuel
    obtain ⟨rest,rfl⟩ : ∃ rest,fuel = rest+1 := ⟨fuel-1,by omega⟩
    rcases descend_index h hleaf hframes hheight with ⟨-,-,-,-,-,hempty⟩ | hpush
    · exact absurd (hempty mine hframe) hne
    · obtain ⟨next,child,frames,hdescend,hnextLeaf,hnextFrames,hchild,hok,first,hfirst,
        hloaded⟩ := hpush
      rw [nextFrom_descend _ hleaf hframes hdescend]
      exact ih hok hnextLeaf hnextFrames hchild hfirst hloaded (by omega)

theorem nextFrom_frames :
    ∀ {reader : Reader} {ahead : Leaves} {fuel : ℕ},ReaderOk digests pages reader ahead [] →
      reader.leaf = false → reader.frames = frames → frames.length+maxRunLevels+2 ≤ fuel →
      Takes digests pages (nextFrom digests pages fuel reader) ahead.flatten := by
  induction frames with
  | nil =>
    intro reader ahead fuel h hleaf hframes hfuel
    obtain ⟨rest,rfl⟩ : ∃ rest,fuel = rest+1 := ⟨fuel-1,by omega⟩
    have hstack:=h.stack
    rw [hframes] at hstack
    obtain rfl : ahead = [] := hstack
    have hcount:=h.count
    have hdigest:=h.digest
    simp only [flatten_nil,append_nil] at hcount hdigest
    refine ⟨{ reader with done := true },?_,rfl⟩
    rw [nextFrom,hleaf,hframes]
    simp only [Bool.false_eq_true,if_false]
    rw [if_neg]
    rw [h.emitted,hcount,hdigest]
    simp
  | cons frame below ih =>
    intro reader ahead fuel h hleaf hframes hfuel
    obtain ⟨rest,rfl⟩ : ∃ rest,fuel = rest+1 := ⟨fuel-1,by omega⟩
    rw [length_cons] at hfuel
    cases hheight : frame.height with
    | zero =>
      have hstack:=h.stack
      rw [hframes] at hstack
      obtain ⟨mine,others,-,hframe,-⟩ := hstack
      refine nextFrom_loaded h hleaf hframes hheight hframe ?_ (by omega)
      unfold FrameOk at hframe
      rw [hheight] at hframe
      obtain ⟨ids,rfl,-⟩ := hframe
      simp
    | succ height =>
      rcases descend_index h hleaf hframes hheight with hpop | hpush
      · obtain ⟨next,hdescend,hnextLeaf,hnextFrames,hok,-⟩ := hpop
        rw [nextFrom_descend _ hleaf hframes hdescend]
        exact ih hok hnextLeaf hnextFrames (by omega)
      · obtain ⟨next,child,frames,hdescend,hnextLeaf,hnextFrames,hchild,hok,first,hfirst,
          hloaded⟩ := hpush
        rw [nextFrom_descend _ hleaf hframes hdescend]
        refine nextFrom_loaded hok hnextLeaf hnextFrames hchild hfirst hloaded ?_
        have hstack:=h.stack
        rw [hframes] at hstack
        obtain ⟨-,-,-,-,hdepth,-⟩ := hstack
        omega

theorem Stack.length_le {stream : Stream} {start : ℕ}
    {leaves : Leaves} (h : Stack pages stream start frames leaves) :
    frames.length ≤ maxRunLevels := by
  cases frames with
  | nil => simp
  | cons frame below =>
    obtain ⟨-,-,-,-,hdepth,-⟩ := h
    rw [length_cons]
    omega

theorem nextFrom_ok (h : ReaderOk digests pages reader ahead here) :
    Takes digests pages (nextFrom digests pages nextFuel reader) (here++ahead.flatten) := by
  have hframes:=h.stack.length_le
  cases here with
  | cons id rest =>
    obtain ⟨next,hnext,hok⟩ := nextFrom_take (4*maxRunLevels-1) h
    exact ⟨next,ahead,rest,hnext,hok,rfl⟩
  | nil =>
    cases hleaf : reader.leaf with
    | false =>
      refine nextFrom_frames h hleaf rfl ?_
      simp only [nextFuel,maxRunLevels] at hframes ⊢
      omega
    | true =>
      obtain ⟨ids,-,-,-,hcount,hempty⟩ := h.opened hleaf
      have hend : ¬ reader.leafIndex < reader.leafCount := by
        rw [hcount]
        exact Nat.not_lt.mpr (drop_eq_nil_iff.mp hempty.symm)
      have hclosed : ReaderOk digests pages { reader with leaf := false } ahead [] :=
        ⟨h.pending,h.stack,nofun,fun _ => rfl,h.emitted,h.previous,
          h.ascending,h.count,h.digest,h.count_lt,h.ordinals⟩
      have hstep : nextFrom digests pages nextFuel reader =
          nextFrom digests pages (4*maxRunLevels-1) { reader with leaf := false } := by
        rw [show nextFuel = 4*maxRunLevels-1+1 from rfl,nextFrom,if_pos hleaf,if_neg hend]
      rw [hstep]
      refine nextFrom_frames hclosed rfl rfl ?_
      simp only [maxRunLevels] at hframes ⊢
      omega

end Reader

def Left (digests : Digests) (pages : Pages) (reader : Reader) (ids : List ℕ) : Prop :=
  (∃ ahead here,ReaderOk digests pages reader ahead here ∧ here++ahead.flatten = ids) ∨
    (reader.done = true ∧ ids = [])

section Left

variable {digests : Digests} {pages : Pages} {reader : Reader} {ids : List ℕ} {run : DurableRun}

theorem Left.mono {more : Pages} (hmore : pages <+: more)
    (h : Left digests pages reader ids) : Left digests more reader ids := by
  rcases h with ⟨ahead,here,hok,hids⟩ | hdone
  · exact .inl ⟨ahead,here,hok.mono hmore,hids⟩
  · exact .inr hdone

theorem Left.next_cons {id : ℕ} (h : Left digests pages reader (id::ids)) :
    ∃ next,reader.next digests pages = .ok (some id,next) ∧ Left digests pages next ids := by
  rcases h with ⟨ahead,here,hok,hids⟩ | ⟨-,hempty⟩
  · have htakes:=nextFrom_ok hok
    rw [hids] at htakes
    obtain ⟨next,ahead',here',hnext,hok',hids'⟩ := htakes
    refine ⟨next,?_,.inl ⟨ahead',here',hok',hids'⟩⟩
    rw [Reader.next,hok.pending]
    simpa using hnext
  · cases hempty

theorem Left.next_nil (h : Left digests pages reader []) :
    ∃ next,reader.next digests pages = .ok (none,next) ∧ Left digests pages next [] := by
  rcases h with ⟨ahead,here,hok,hids⟩ | ⟨hdone,-⟩
  · have htakes:=nextFrom_ok hok
    rw [hids] at htakes
    obtain ⟨next,hnext,hdone⟩ := htakes
    refine ⟨next,?_,.inr ⟨hdone,rfl⟩⟩
    rw [Reader.next,hok.pending]
    simpa using hnext
  · refine ⟨reader,?_,.inr ⟨hdone,rfl⟩⟩
    rw [Reader.next,hdone]
    rfl

theorem RunOk.left (h : RunOk digests pages run ids) : Left digests pages (Reader.new run) ids := by
  obtain ⟨leaves,rfl,hholds⟩ := h.holds
  left
  have hcount:=h.count
  have hsound:=h.sound.count
  have hlength:=length_le_flatten hholds.leaf_ne_nil
  have hheight:=h.height_lt
  refine ⟨leaves,[],⟨rfl,?_,nofun,fun _ => rfl,rfl,rfl,?_,?_,?_,?_,
    ?_⟩,rfl⟩
  · refine ⟨leaves,[],(append_nil _).symm,frameOk_of_holds hholds,?_,by simp,rfl⟩
    simp only [length_nil]
    omega
  · simpa [Reader.new] using h.sound.ascending
  · simpa [Reader.new] using hcount
  · simpa [Reader.new] using h.digest
  · simp only [Reader.new]
    omega
  · simp only [Reader.new]
    omega

theorem readFrom_ok {fuel : ℕ} (hfuel : ids.length < fuel) :
    ∀ {reader : Reader},Left digests pages reader ids →
      readFrom digests pages fuel reader = .ok ids := by
  induction ids generalizing fuel with
  | nil =>
    intro reader h
    obtain ⟨rest,rfl⟩ : ∃ rest,fuel = rest+1 := ⟨fuel-1,by simp at hfuel; omega⟩
    obtain ⟨next,hnext,-⟩ := h.next_nil
    rw [readFrom,hnext]
    rfl
  | cons id ids ih =>
    intro reader h
    rw [length_cons] at hfuel
    obtain ⟨rest,rfl⟩ : ∃ rest,fuel = rest+1 := ⟨fuel-1,by omega⟩
    obtain ⟨next,hnext,hleft⟩ := h.next_cons
    rw [readFrom,hnext]
    simp only [ok_bind]
    rw [ih (by omega) hleft]
    rfl

theorem readRun_ok (h : RunOk digests pages run ids) : readRun digests pages run = .ok ids :=
  readFrom_ok (by rw [h.count]; omega) h.left

end Left

variable {ids : List ℕ} {artifact height : ℕ}

theorem head_le_of_mem (h : ids.Pairwise (· < ·)) {first : ℕ}
    (hfirst : ids.head? = some first) : ∀ id ∈ ids,first ≤ id := by
  obtain ⟨rest,rfl⟩ := head?_eq_some_iff.mp hfirst
  intro id hid
  rcases mem_cons.mp hid with rfl | hid
  · exact Nat.le_refl _
  · exact ((pairwise_cons.mp h).1 id hid).le

theorem le_getLast_of_mem (h : ids.Pairwise (· < ·)) {last : ℕ}
    (hlast : ids.getLast? = some last) : ∀ id ∈ ids,id ≤ last := by
  obtain ⟨front,rfl⟩ := getLast?_eq_some_iff.mp hlast
  intro id hid
  rcases mem_append.mp hid with hid | hid
  · exact ((pairwise_append.mp h).2.2 id hid last mem_cons_self).le
  · exact (mem_singleton.mp hid).le

theorem searchLeaf_ok (hids : ids.Pairwise (· < ·)) {fuel : ℕ} :
    ∀ {low high : ℕ},high ≤ ids.length → high ≤ low+fuel →
      (∀ i (h : i < ids.length),i < low → ids[i] < artifact) →
      (∀ i (h : i < ids.length),high ≤ i → artifact < ids[i]) →
      searchLeaf ids artifact fuel low high = .ok (decide (artifact ∈ ids)) := by
  -- with no position left between the bounds the identity is absent
  have habsent : ∀ {low high : ℕ},high ≤ low →
      (∀ i (h : i < ids.length),i < low → ids[i] < artifact) →
      (∀ i (h : i < ids.length),high ≤ i → artifact < ids[i]) → decide (artifact ∈ ids) = false := by
    intro low high hle hlow hhigh
    rw [decide_eq_false_iff_not,mem_iff_getElem]
    rintro ⟨i,hi,rfl⟩
    rcases Nat.lt_or_ge i low with hbelow | habove
    · exact absurd (hlow i hi hbelow) (Nat.lt_irrefl _)
    · exact absurd (hhigh i hi (hle.trans habove)) (Nat.lt_irrefl _)
  have hmono:=pairwise_iff_getElem.mp hids
  induction fuel with
  | zero =>
    intro low high _ hfuel hlow hhigh
    rw [searchLeaf,habsent (by omega) hlow hhigh]
  | succ fuel ih =>
    intro low high hbound hfuel hlow hhigh
    rw [searchLeaf]
    by_cases hlt : low < high
    · have hmiddle : low+(high-low) / 2 < ids.length := by omega
      rw [if_pos hlt,getElem?_eq_getElem hmiddle]
      simp only
      split_ifs with heq hless
      · rw [decide_eq_true (heq ▸ getElem_mem hmiddle)]
      · refine ih hbound (by omega) (fun i hi hin => ?_) hhigh
        rcases Nat.lt_or_ge i (low+(high-low) / 2) with hbelow | habove
        · exact (hmono i _ hi hmiddle hbelow).trans hless
        · have : i = low+(high-low) / 2 := by omega
          subst this
          exact hless
      · refine ih (by omega) (by omega) hlow fun i hi hin => ?_
        rcases Nat.lt_or_ge (low+(high-low) / 2) i with hbelow | habove
        · exact (Nat.lt_of_le_of_ne (Nat.le_of_not_lt hless) (Ne.symm heq)).trans
            (hmono _ i hmiddle hi hbelow)
        · have : i = low+(high-low) / 2 := by omega
          subst this
          exact Nat.lt_of_le_of_ne (Nat.le_of_not_lt hless) (Ne.symm heq)
    · rw [if_neg hlt,habsent (by omega) hlow hhigh]

theorem childFor_ok {P : ℕ → ℕ → Leaves → Prop} {stream : Stream} (artifact : ℕ)
    {children : List DurableRun} (hne : children ≠ []) (hfan : children.length ≤ mergeFanIn)
    {left : ℕ} : ∀ {start : ℕ} {leaves : Leaves},left ≤ children.length →
      Chain (ChildOf P stream height) start (children.drop (children.length-left)) leaves →
      leaves.flatten.Pairwise (· < ·) →
      (childFor (height+1) children artifact left = .ok none ∧ artifact ∉ leaves.flatten) ∨
      ∃ child begin mine,childFor (height+1) children artifact left = .ok (some child) ∧
        ChildOf P stream height begin child mine ∧ mine.flatten.Pairwise (· < ·) ∧
          (artifact ∈ leaves.flatten ↔ artifact ∈ mine.flatten) := by
  have hpositive:=length_pos_iff.mpr hne
  induction left with
  | zero =>
    intro start leaves _ hchain _
    rw [Nat.sub_zero,drop_length] at hchain
    obtain rfl : leaves = [] := hchain
    exact .inl ⟨rfl,by simp⟩
  | succ left ih =>
    intro start leaves hleft hchain hascending
    have hindex : children.length-(left+1) < children.length := by omega
    rw [← getElem_cons_drop hindex] at hchain
    obtain ⟨mine,rest,rfl,hchild,hrest⟩ := hchain
    rw [flatten_append] at hascending
    obtain ⟨hmine,hrestAscending,hacross⟩ := pairwise_append.mp hascending
    have hfirst:=head_le_of_mem hmine hchild.first
    have hlast:=le_getLast_of_mem hmine hchild.last
    have hdecode : decodeChild (height+1) children (children.length-(left+1)) =
        .ok { children[children.length-(left+1)] with height := height } := by
      rw [decodeChild,if_neg (by omega),getElem?_eq_getElem hindex]
      rfl
    rw [childFor,hdecode,ok_bind,failIf_neg _ (by simp),ok_bind]
    split_ifs with hin
    · right
      refine ⟨_,start,mine,rfl,?_,hmine,?_⟩
      · exact ⟨hchild.binding,rfl,hchild.count,hchild.first,hchild.last,hchild.below⟩
      · rw [flatten_append,mem_append,or_iff_left]
        intro hother
        have hmem:=mem_of_getLast? hchild.last
        have := hacross _ hmem artifact hother
        have := hin.2
        simp only at this
        omega
    · have hout : artifact ∉ mine.flatten := fun hmem => hin ⟨hfirst artifact hmem,hlast artifact hmem⟩
      have hsplit : ∀ P : Prop,(artifact ∈ (mine++rest).flatten ↔ P) ↔
          (artifact ∈ rest.flatten ↔ P) := by
        intro P
        rw [flatten_append,mem_append,or_iff_right hout]
      have hnext : children.length-(left+1)+1 = children.length-left := by omega
      rw [hnext] at hrest
      rcases ih (by omega) hrest hrestAscending with ⟨hnone,habsent⟩ | ⟨child,begin,found,hsome,hok,
        hsorted,hiff⟩
      · left
        refine ⟨hnone,?_⟩
        rw [flatten_append,mem_append]
        exact fun hor => hor.elim hout habsent
      · exact .inr ⟨child,begin,found,hsome,hok,hsorted,(hsplit _).mpr hiff⟩

theorem containsFrom_ok {pages : Pages} {stream : Stream} :
    ∀ {fuel start reference : ℕ} {leaves : Leaves},
      Holds pages stream height start reference leaves → leaves.flatten.Pairwise (· < ·) →
      height < fuel → containsFrom pages stream.binding artifact fuel reference height =
        .ok (decide (artifact ∈ leaves.flatten)) := by
  induction height with
  | zero =>
    rintro fuel start reference leaves ⟨ids,rfl,hne,hlimit,hpage⟩ hascending hfuel
    obtain ⟨rest,rfl⟩ : ∃ rest,fuel = rest+1 := ⟨fuel-1,by omega⟩
    have hpositive:=length_pos_iff.mpr hne
    simp only [flatten_cons,flatten_nil,append_nil] at hascending ⊢
    rw [containsFrom,readPage,hpage]
    simp only [ok_bind, validatePrefix,failIf_neg _ (not_not.mpr rfl)]
    rw [if_neg (by omega)]
    exact searchLeaf_ok hascending (Nat.le_refl _) (by omega) (by simp) (by omega)
  | succ height ih =>
    rintro fuel start reference leaves ⟨count,digest,children,hpage,hne,hfan,-,hchain⟩
      hascending hfuel
    obtain ⟨rest,rfl⟩ : ∃ rest,fuel = rest+1 := ⟨fuel-1,by omega⟩
    rw [containsFrom,readPage,hpage]
    simp only [ok_bind, validatePrefix,failIf_neg _ (not_not.mpr rfl)]
    rw [if_neg (by omega)]
    have hall : Chain (ChildOf (Holds pages stream height) stream height) start
        (children.drop (children.length-children.length)) leaves := by
      rwa [Nat.sub_self]
    rcases childFor_ok artifact hne hfan (Nat.le_refl _) hall hascending with
      ⟨hnone,habsent⟩ | ⟨child,begin,mine,hsome,hchild,hsorted,hiff⟩
    · rw [hnone,decide_eq_false habsent]
      rfl
    · rw [hsome,ok_bind]
      simp only
      rw [hchild.height_eq,ih hchild.below hsorted (by omega)]
      simp only [hiff]

theorem contains_ok {digests : Digests} {pages : Pages} {run : DurableRun}
    (h : RunOk digests pages run ids) (artifact : ℕ) :
    contains pages run artifact = .ok (decide (artifact ∈ ids)) := by
  obtain ⟨leaves,rfl,hholds⟩ := h.holds
  rw [contains]
  split_ifs with hout
  · rw [decide_eq_false]
    intro hmem
    have := head_le_of_mem h.sound.ascending h.first artifact hmem
    have := le_getLast_of_mem h.sound.ascending h.last artifact hmem
    omega
  · exact containsFrom_ok hholds h.sound.ascending (Nat.lt_succ_of_lt h.height_lt)

end Zeppelin.Reclaim
