import Zeppelin.Reclaim.ReaderSpec

namespace Zeppelin.Reclaim
open List

def mergeUnique : List ℕ → List ℕ → List ℕ
  | [],right => right
  | left,[] => left
  | a::left,b::right =>
    if a < b then a::mergeUnique left (b::right)
    else if b < a then b::mergeUnique (a::left) right
    else a::mergeUnique left right
termination_by left right => left.length+right.length

theorem mergeUnique_nil (left : List ℕ) : mergeUnique left [] = left := by
  cases left with
  | nil => rw [mergeUnique]
  | cons a left =>
    rw [mergeUnique]
    simp

theorem mem_mergeUnique {left right : List ℕ} {id : ℕ} :
    id ∈ mergeUnique left right ↔ id ∈ left ∨ id ∈ right := by
  fun_induction mergeUnique left right with
  | case1 right => simp
  | case2 left => simp
  | case3 a left b right _ ih =>
    simp only [mem_cons,ih,or_assoc]
  | case4 a left b right _ _ ih =>
    rw [mem_cons,ih,mem_cons,mem_cons,or_left_comm]
  | case5 a left b right hab hba ih =>
    have heq : a = b := Nat.le_antisymm (Nat.le_of_not_lt hba) (Nat.le_of_not_lt hab)
    subst heq
    simp only [mem_cons,ih]
    constructor
    · rintro (h | h | h)
      · exact .inl (.inl h)
      · exact .inl (.inr h)
      · exact .inr (.inr h)
    · rintro ((h | h) | (h | h))
      · exact .inl h
      · exact .inr (.inl h)
      · exact .inl h
      · exact .inr (.inr h)

theorem mergeUnique_ascending {left right : List ℕ} (hleft : left.Pairwise (· < ·))
    (hright : right.Pairwise (· < ·)) : (mergeUnique left right).Pairwise (· < ·) := by
  fun_induction mergeUnique left right with
  | case1 right => exact hright
  | case2 left => exact hleft
  | case3 a left b right hab ih =>
    obtain ⟨ha,hleft⟩ := pairwise_cons.mp hleft
    obtain ⟨hb,-⟩ := pairwise_cons.mp hright
    refine pairwise_cons.mpr ⟨fun id hid => ?_,ih hleft hright⟩
    rcases mem_mergeUnique.mp hid with hid | hid
    · exact ha id hid
    · rcases mem_cons.mp hid with rfl | hid
      · exact hab
      · exact hab.trans (hb id hid)
  | case4 a left b right _ hba ih =>
    obtain ⟨ha,-⟩ := pairwise_cons.mp hleft
    obtain ⟨hb,hright⟩ := pairwise_cons.mp hright
    refine pairwise_cons.mpr ⟨fun id hid => ?_,ih hleft hright⟩
    rcases mem_mergeUnique.mp hid with hid | hid
    · rcases mem_cons.mp hid with rfl | hid
      · exact hba
      · exact hba.trans (ha id hid)
    · exact hb id hid
  | case5 a left b right hab hba ih =>
    obtain ⟨ha,hleft⟩ := pairwise_cons.mp hleft
    obtain ⟨hb,hright⟩ := pairwise_cons.mp hright
    refine pairwise_cons.mpr ⟨fun id hid => ?_,ih hleft hright⟩
    rcases mem_mergeUnique.mp hid with hid | hid
    · exact ha id hid
    · exact (Nat.le_of_not_lt hba).trans_lt (hb id hid)

theorem length_mergeUnique_le (left right : List ℕ) :
    (mergeUnique left right).length ≤ left.length+right.length := by
  fun_induction mergeUnique left right with
  | case1 right => simp
  | case2 left => simp
  | case3 a left b right _ ih =>
    simp only [length_cons] at ih ⊢
    omega
  | case4 a left b right _ _ ih =>
    simp only [length_cons] at ih ⊢
    omega
  | case5 a left b right _ _ ih =>
    simp only [length_cons] at ih ⊢
    omega

section Merge

variable {digests : Digests} {pages : Pages} {ids l r : List ℕ} {left right : DurableRun}
  {held : Option ℕ} {reader : Reader} {behind : List ℕ} {stream : Stream}

theorem holdNext_cons {id : ℕ}
    (h : Left digests pages reader behind) (hids : held.toList++behind = id::ids) :
    ∃ next,holdNext digests pages held reader = .ok (some id,next) ∧
      Left digests pages next ids := by
  cases held with
  | some found =>
    obtain ⟨rfl,rfl⟩ := List.cons.inj hids
    exact ⟨reader,rfl,h⟩
  | none =>
    obtain rfl : behind = id::ids := hids
    exact h.next_cons

theorem holdNext_nil (h : Left digests pages reader behind) (hids : held.toList++behind = []) :
    ∃ next,holdNext digests pages held reader = .ok (none,next) ∧
      Left digests pages next [] := by
  cases held with
  | some found => cases hids
  | none =>
    obtain rfl : behind = [] := hids
    exact h.next_nil

def MergeLeft (digests : Digests) (pages : Pages) (reader : MergeReader) (ids : List ℕ) : Prop :=
  ∃ left right,Left digests pages reader.left left ∧ Left digests pages reader.right right ∧
    mergeUnique (reader.leftNext.toList++left) (reader.rightNext.toList++right) = ids

theorem MergeLeft.mono {more : Pages} (hmore : pages <+: more) {reader : MergeReader}
    (h : MergeLeft digests pages reader ids) : MergeLeft digests more reader ids := by
  obtain ⟨left,right,hleft,hright,hids⟩ := h
  exact ⟨left,right,hleft.mono hmore,hright.mono hmore,hids⟩

theorem MergeLeft.next {reader : MergeReader} (h : MergeLeft digests pages reader ids) :
    ∃ next,reader.next digests pages = .ok (ids.head?,next) ∧
      MergeLeft digests pages next ids.tail := by
  obtain ⟨left,right,hleft,hright,rfl⟩ := h
  cases hl : reader.leftNext.toList++left with
  | nil =>
    obtain ⟨left',hleftNext,hleft'⟩ := holdNext_nil hleft hl
    cases hr : reader.rightNext.toList++right with
    | nil =>
      obtain ⟨right',hrightNext,hright'⟩ := holdNext_nil hright hr
      refine ⟨⟨left',right',none,none⟩,?_,[],[],hleft',hright',?_⟩
      · rw [MergeReader.next,hleftNext,ok_bind,hrightNext,mergeUnique]
        rfl
      · simp [mergeUnique]
    | cons b behind =>
      obtain ⟨right',hrightNext,hright'⟩ := holdNext_cons hright hr
      refine ⟨⟨left',right',none,none⟩,?_,[],behind,hleft',hright',?_⟩
      · rw [MergeReader.next,hleftNext,ok_bind,hrightNext,mergeUnique]
        rfl
      · simp [mergeUnique]
  | cons a front =>
    obtain ⟨left',hleftNext,hleft'⟩ := holdNext_cons hleft hl
    cases hr : reader.rightNext.toList++right with
    | nil =>
      obtain ⟨right',hrightNext,hright'⟩ := holdNext_nil hright hr
      refine ⟨⟨left',right',none,none⟩,?_,front,[],hleft',hright',?_⟩
      · rw [MergeReader.next,hleftNext,ok_bind,hrightNext,mergeUnique_nil]
        rfl
      · simp [mergeUnique_nil]
    | cons b behind =>
      obtain ⟨right',hrightNext,hright'⟩ := holdNext_cons hright hr
      rw [MergeReader.next,hleftNext,mergeUnique]
      simp only [ok_bind,hrightNext]
      split_ifs with hab hba
      · exact ⟨⟨left',right',none,some b⟩,rfl,front,behind,hleft',hright',rfl⟩
      · exact ⟨⟨left',right',some a,none⟩,rfl,front,behind,hleft',hright',rfl⟩
      · exact ⟨⟨left',right',none,none⟩,rfl,front,behind,hleft',hright',rfl⟩

theorem fillChunk_ok (limit : ℕ) : ∀ {reader : MergeReader} {ids : List ℕ},
    MergeLeft digests pages reader ids →
      ∃ next,fillChunk digests pages limit reader = .ok (ids.take limit,next) ∧
        MergeLeft digests pages next (ids.drop limit) := by
  induction limit with
  | zero => exact fun {reader ids} h => ⟨reader,rfl,h⟩
  | succ limit ih =>
    intro reader ids h
    obtain ⟨next,hnext,hleft⟩ := h.next
    cases ids with
    | nil =>
      refine ⟨next,?_,hleft⟩
      rw [fillChunk,hnext]
      rfl
    | cons id ids =>
      obtain ⟨after,hafter,hrest⟩ := ih hleft
      refine ⟨after,?_,hrest⟩
      rw [fillChunk,hnext]
      simp only [head?_cons,ok_bind,tail_cons] at hafter ⊢
      rw [hafter]
      rfl

theorem firstId_ok {first : ℕ} (h : ids.head? = some first) : firstId ids = .ok first := by
  rw [firstId,h]

theorem lastId_ok {last : ℕ} (h : ids.getLast? = some last) : lastId ids = .ok last := by
  rw [lastId,h]

theorem leaf_ok (digests : Digests) (pages : Pages) (stream : Stream) (ordinal : ℕ)
    {chunk : List ℕ} (hne : chunk ≠ []) (hlimit : chunk.length ≤ spillChunkLimit)
    (hascending : chunk.Pairwise (· < ·)) :
    ∃ page child,encodeLeaf stream.binding chunk ordinal stream.total stream.digest = .ok page ∧
      leafRun digests stream.binding pages.length chunk = .ok child ∧ child.root = pages.length ∧
        ChildOf (Holds (pages++[page]) stream 0) stream 0 ordinal child [chunk] := by
  obtain ⟨first,hfirst⟩ : ∃ first,chunk.head? = some first :=
    ⟨_,head?_eq_some_head hne⟩
  obtain ⟨last,hlast⟩ : ∃ last,chunk.getLast? = some last :=
    ⟨_,getLast?_eq_some_getLast hne⟩
  have hpage : encodeLeaf stream.binding chunk ordinal stream.total stream.digest =
      .ok ⟨stream.binding,.leaf chunk ordinal stream.total stream.digest⟩ := by
    rw [encodeLeaf,if_neg]
    rintro (hempty | hlong | hunsorted)
    · exact hne (List.isEmpty_iff.mp hempty)
    · omega
    · exact hunsorted (decide_eq_true hascending)
  have hchild : leafRun digests stream.binding pages.length chunk = .ok
      ⟨pages.length,chunk.length,digests.ids chunk,first,last,stream.binding,0⟩ := by
    rw [leafRun,firstId_ok hfirst,ok_bind,lastId_ok hlast]
    rfl
  refine ⟨_,_,hpage,hchild,rfl,rfl,rfl,by simp,by simpa using hfirst,by simpa using hlast,
    chunk,rfl,hne,hlimit,?_⟩
  rw [getElem?_append_right (Nat.le_refl _),Nat.sub_self]
  rfl

structure Building (digests : Digests) (stream : Stream) (pages : Pages) (levels : BuildLevels)
    (leaves : Leaves) (rest : List ℕ) : Prop where
  levels_ok : LevelsOk pages stream 0 levels leaves
  length : levels.length = maxRunLevels
  weight_eq : weight levels = leaves.length
  leaf_ne_nil : ∀ leaf ∈ leaves,leaf ≠ []
  sound : Sound (leaves.flatten++rest)

theorem Building.leaves_lt {levels : BuildLevels} {leaves : Leaves}
    {rest : List ℕ} (h : Building digests stream pages levels leaves rest) :
    leaves.length+rest.length < 2^64 := by
  have hcount:=h.sound.count
  have hleaves:=length_le_flatten h.leaf_ne_nil
  rw [length_append] at hcount
  omega

theorem writeLeaves_ok (stream : Stream) {fuel : ℕ} :
    ∀ {reader : MergeReader} {pages : Pages} {levels : BuildLevels} {leaves : Leaves}
      {rest : List ℕ},MergeLeft digests pages reader rest →
      Building digests stream pages levels leaves rest → rest.length < fuel →
      ∃ next more all,
        writeLeaves digests stream.binding stream.total stream.digest fuel leaves.length reader levels
            pages = .ok (next,more) ∧ pages <+: more ∧
          Building digests stream more next all [] ∧ all.flatten = leaves.flatten++rest := by
  induction fuel with
  | zero => exact fun _ _ hfuel => absurd hfuel (Nat.not_lt_zero _)
  | succ fuel ih =>
    intro reader pages levels leaves rest hreader hbuilding hfuel
    obtain ⟨after,hfill,hafter⟩ := fillChunk_ok spillChunkLimit hreader
    rw [writeLeaves,hfill]
    simp only [ok_bind]
    cases rest with
    | nil =>
      rw [take_nil]
      simp only [isEmpty_nil,if_true]
      exact ⟨levels,pages,leaves,rfl,prefix_rfl,hbuilding,(append_nil _).symm⟩
    | cons id rest =>
      have hsplit : (id::rest).take spillChunkLimit++(id::rest).drop spillChunkLimit =
          id::rest := take_append_drop ..
      generalize htake : (id::rest).take spillChunkLimit = chunk at hsplit ⊢
      generalize hdrop : (id::rest).drop spillChunkLimit = behind at hsplit hafter
      have hne : chunk ≠ [] := by
        rw [← htake,spillChunkLimit]
        simp
      have hpositive:=length_pos_iff.mpr hne
      have hlimit : chunk.length ≤ spillChunkLimit := by
        rw [← htake]
        exact length_take_le ..
      have hsound:=hbuilding.sound
      rw [← hsplit,← append_assoc] at hsound
      have hchunk : chunk.Pairwise (· < ·) :=
        (pairwise_append.mp hsound.append_left.ascending).2.1
      obtain ⟨page,child,hpage,hchild,hroot,hchildOk⟩ :=
        leaf_ok digests pages stream leaves.length hne hlimit hchunk
      have hlt:=hbuilding.leaves_lt
      have hweight : weight levels+1 < mergeFanIn^levels.length := by
        rw [hbuilding.weight_eq,hbuilding.length]
        simp only [length_cons] at hlt
        have : 2^64 < mergeFanIn^maxRunLevels := by decide
        omega
      have hflatten : (leaves++[chunk]).flatten = leaves.flatten++chunk := by simp
      obtain ⟨next,more,hpush,hmore,hnext,hnextWeight,hnextLength⟩ :=
        pushAt_ok digests (hbuilding.levels_ok.mono (prefix_append pages [page])) hchildOk
          (by simp [hroot]) (hflatten ▸ hsound.append_left) hweight
      have hadd : addCount leaves.length 1 = .ok (leaves.length+1) := by
        apply addCount_of_lt
        simp only [length_cons] at hlt
        omega
      have hgrown : (leaves++[chunk]).length = leaves.length+1 := by simp
      have hbuilt : Building digests stream more next (leaves++[chunk]) behind := by
        refine ⟨hnext,hnextLength.trans hbuilding.length,?_,?_,hflatten ▸ hsound⟩
        · rw [hnextWeight,hbuilding.weight_eq,hgrown]
        · intro leaf hleaf
          rcases mem_append.mp hleaf with hleaf | hleaf
          · exact hbuilding.leaf_ne_nil leaf hleaf
          · rw [mem_singleton.mp hleaf]
            exact hne
      have hshort : behind.length < fuel := by
        have : chunk.length+behind.length = (id::rest).length := by
          rw [← hsplit,length_append]
        omega
      have hpages : pages <+: more := (prefix_append ..).trans hmore
      obtain ⟨final,finalPages,all,hwrite,hfinal,hall,hids⟩ :=
        ih (hafter.mono hpages) hbuilt hshort
      refine ⟨final,finalPages,all,?_,hpages.trans hfinal,hall,?_⟩
      · rw [if_neg (by simpa using hne),hpage,ok_bind,hchild,ok_bind,hpush]
        simp only [ok_bind,hadd]
        rw [hgrown] at hwrite
        exact hwrite
      · rw [hids,hflatten,append_assoc,hsplit]

theorem levelsOk_replicate (pages : Pages) (stream : Stream) (count : ℕ) :
    ∀ height,LevelsOk pages stream height (List.replicate count []) [] := by
  induction count with
  | zero => exact fun _ => rfl
  | succ count ih =>
    intro height
    exact ⟨[],[],rfl,ih (height+1),rfl,by simp [mergeFanIn],by simp⟩

theorem weight_replicate (count : ℕ) : weight (List.replicate count []) = 0 := by
  induction count with
  | zero => rfl
  | succ count ih => simp [replicate_succ,weight,ih]

theorem building_start (hsound : Sound ids) : Building digests stream pages emptyLevels [] ids where
  levels_ok := levelsOk_replicate pages stream maxRunLevels 0
  length := length_replicate
  weight_eq := weight_replicate maxRunLevels
  leaf_ne_nil := by simp
  sound := hsound

theorem mergeLeft_new (hleft : RunOk digests pages left l) (hright : RunOk digests pages right r) :
    MergeLeft digests pages (MergeReader.new left right) (mergeUnique l r) :=
  ⟨l,r,hleft.left,hright.left,rfl⟩

theorem fillChunk_all (hleft : RunOk digests pages left l) (hright : RunOk digests pages right r) :
    ∃ next,fillChunk digests pages (left.count+right.count+1) (MergeReader.new left right) =
      .ok (mergeUnique l r,next) := by
  obtain ⟨next,hfill,-⟩ := fillChunk_ok (left.count+right.count+1)
    (mergeLeft_new hleft hright)
  refine ⟨next,?_⟩
  rw [hfill,take_of_length_le]
  rw [hleft.count,hright.count]
  exact (length_mergeUnique_le l r).trans (Nat.le_succ _)

theorem mergeUnique_ne_nil {left right : List ℕ} (h : left ≠ []) : mergeUnique left right ≠ [] := by
  obtain ⟨id,hid⟩ := exists_mem_of_ne_nil left h
  exact ne_nil_of_mem (mem_mergeUnique.mpr (.inl hid))

theorem RunOk.ne_nil {run : DurableRun} (h : RunOk digests pages run ids) : ids ≠ [] := by
  intro hempty
  have hfirst:=h.first
  rw [hempty] at hfirst
  cases hfirst

theorem mergeRuns_ok (binding : SpillBinding)
    (hleft : RunOk digests pages left l) (hright : RunOk digests pages right r) :
    if (mergeUnique l r).length < 2^64 then
      ∃ run more,mergeRuns digests binding left right pages = .ok (run,more) ∧
        pages <+: more ∧ RunOk digests more run (mergeUnique l r)
    else mergeRuns digests binding left right pages = .error .work := by
  obtain ⟨next,hfill⟩ := fillChunk_all hleft hright
  have hreader:=mergeLeft_new hleft hright
  have hlength:=length_mergeUnique_le l r
  have hne : mergeUnique l r ≠ [] := mergeUnique_ne_nil hleft.ne_nil
  have hascending:=mergeUnique_ascending hleft.sound.ascending hright.sound.ascending
  generalize mergeUnique l r = ids at *
  rw [mergeRuns,hfill]
  simp only [ok_bind]
  split_ifs with hcount
  · have hsound : Sound ids := ⟨hascending,hcount⟩
    obtain ⟨first,hfirst⟩ : ∃ first,ids.head? = some first := ⟨_,head?_eq_some_head hne⟩
    obtain ⟨last,hlast⟩ : ∃ last,ids.getLast? = some last :=
      ⟨_,getLast?_eq_some_getLast hne⟩
    have hfuel : ids.length < left.count+right.count+1 := by
      rw [hleft.count,hright.count]
      omega
    obtain ⟨levels,middle,leaves,hwrite,hmiddle,hbuilt,hflatten⟩ :=
      writeLeaves_ok ⟨binding,ids.length,digests.ids ids⟩ hreader
        (building_start hsound) hfuel
    rw [flatten_nil,nil_append] at hflatten
    have hweight : weight levels ≤ mergeFanIn^(maxRunLevels-1) := by
      have hlt:=hbuilt.leaves_lt
      rw [hbuilt.weight_eq]
      have : 2^64 < mergeFanIn^(maxRunLevels-1) := by decide
      omega
    have hpositive : 0 < weight levels := by
      rw [hbuilt.weight_eq]
      apply length_pos_iff.mpr
      intro hempty
      rw [hempty] at hflatten
      exact hne hflatten.symm
    obtain ⟨root,more,top,hfinish,hmore,htop,hroot⟩ :=
      finishFrom_ok digests hbuilt.levels_ok hbuilt.length hpositive hweight
        (by rwa [hflatten])
    rw [addCount_of_lt (by omega),ok_bind,firstId_ok hfirst,ok_bind,lastId_ok hlast,ok_bind]
    rw [length_nil] at hwrite
    simp only [Nat.add_zero,hwrite,ok_bind,hfinish]
    refine ⟨_,more,rfl,hmiddle.trans hmore,⟨leaves,hflatten,?_⟩,?_,hsound,rfl,rfl,hfirst,
      hlast⟩
    · have hbelow:=hroot.below
      rw [← hroot.height_eq] at hbelow
      rw [DurableRun.stream,hroot.binding]
      exact hbelow
    · rw [hroot.height_eq]
      omega
  · rw [addCount,if_neg (by omega)]
    rfl

end Merge

end Zeppelin.Reclaim
