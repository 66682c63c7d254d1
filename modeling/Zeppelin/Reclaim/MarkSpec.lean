import Zeppelin.Reclaim.MergeRuns

namespace Zeppelin.Reclaim
open List

variable {ids : List ℕ} {id : ℕ}

theorem mem_dedup : id ∈ dedup ids ↔ id ∈ ids := by
  fun_induction dedup ids with
  | case1 => rfl
  | case2 a => rfl
  | case3 b ids ih =>
    rw [ih]
    simp
  | case4 a b ids _ ih =>
    rw [mem_cons,ih]
    exact mem_cons.symm

theorem length_dedup_le (ids : List ℕ) : (dedup ids).length ≤ ids.length := by
  fun_induction dedup ids with
  | case1 => exact Nat.le_refl _
  | case2 a => exact Nat.le_refl _
  | case3 b ids ih => exact ih.trans (Nat.le_succ _)
  | case4 a b ids _ ih => exact Nat.succ_le_succ ih

theorem dedup_ascending (h : ids.Pairwise (· ≤ ·)) : (dedup ids).Pairwise (· < ·) := by
  fun_induction dedup ids with
  | case1 => exact List.Pairwise.nil
  | case2 a => simp
  | case3 b ids ih => exact ih (pairwise_cons.mp h).2
  | case4 a b ids hne ih =>
    obtain ⟨ha,htail⟩ := pairwise_cons.mp h
    obtain ⟨hb,-⟩ := pairwise_cons.mp htail
    apply pairwise_cons.mpr
    refine ⟨?_,ih htail⟩
    intro id hid
    have hab : a < b := Nat.lt_of_le_of_ne (ha b mem_cons_self) hne
    rcases mem_cons.mp (mem_dedup.mp hid) with rfl | hid
    · exact hab
    · exact hab.trans_le (hb id hid)

theorem mem_sortDedup : id ∈ sortDedup ids ↔ id ∈ ids := by
  rw [sortDedup,mem_dedup,mem_insertionSort]

theorem length_sortDedup_le (ids : List ℕ) : (sortDedup ids).length ≤ ids.length := by
  calc (sortDedup ids).length ≤ (ids.insertionSort (· ≤ ·)).length := length_dedup_le _
    _ = ids.length := length_insertionSort ..

theorem sortDedup_ascending (ids : List ℕ) : (sortDedup ids).Pairwise (· < ·) :=
  dedup_ascending (pairwise_insertionSort (· ≤ ·) ids)

theorem sortDedup_ne_nil (h : ids ≠ []) : sortDedup ids ≠ [] := by
  obtain ⟨id,hid⟩ := exists_mem_of_ne_nil ids h
  exact ne_nil_of_mem (mem_sortDedup.mpr hid)

theorem writeSingleRun_ok (digests : Digests) (binding : SpillBinding) (pages : Pages)
    (hne : ids ≠ []) (hlimit : ids.length ≤ spillChunkLimit) (hascending : ids.Pairwise (· < ·)) :
    ∃ run more,writeSingleRun digests binding pages ids = .ok (run,more) ∧ pages <+: more ∧
      RunOk digests more run ids := by
  obtain ⟨page,child,hpage,hchild,-,hholds⟩ :=
    leaf_ok digests pages ⟨binding,ids.length,digests.ids ids⟩ 0 hne hlimit hascending
  obtain ⟨first,hfirst⟩ : ∃ first,ids.head? = some first := ⟨_,head?_eq_some_head hne⟩
  obtain ⟨last,hlast⟩ : ∃ last,ids.getLast? = some last :=
    ⟨_,getLast?_eq_some_getLast hne⟩
  have hrun : leafRun digests binding pages.length ids =
      .ok ⟨pages.length,ids.length,digests.ids ids,first,last,binding,0⟩ := by
    rw [leafRun,firstId_ok hfirst,ok_bind,lastId_ok hlast]
    rfl
  have heq : child = ⟨pages.length,ids.length,digests.ids ids,first,last,binding,0⟩ := by
    rw [hrun] at hchild
    exact (Except.ok.inj hchild).symm
  refine ⟨child,pages++[page],?_,prefix_append ..,?_⟩
  · rw [writeSingleRun,hchild,ok_bind,hpage]
    rfl
  · have hcount : ids.length < 2^64 := by
      rw [spillChunkLimit] at hlimit
      omega
    have hbelow:=hholds.below
    rw [heq] at hbelow ⊢
    exact ⟨⟨[ids],by simp,hbelow⟩,by simp [maxRunLevels],⟨hascending,hcount⟩,rfl,rfl,hfirst,
      hlast⟩

section Levels

variable {digests : Digests} {pages : Pages}

def SlotOk (digests : Digests) (pages : Pages) : Option DurableRun → List ℕ → Prop
  | none,ids => ids = []
  | some run,ids => RunOk digests pages run ids

def Waiting (digests : Digests) (pages : Pages) : List (Option DurableRun) → List ℕ → Prop
  | [],ids => ids = []
  | slot::levels,ids => ∃ mine rest,ids = mine++rest ∧ SlotOk digests pages slot mine ∧
    Waiting digests pages levels rest

def chunks : List (Option DurableRun) → ℕ
  | [] => 0
  | none::levels => 2*chunks levels
  | some _::levels => 1+2*chunks levels

theorem SlotOk.mono {more : Pages} (hmore : pages <+: more) {slot : Option DurableRun}
    {ids : List ℕ} (h : SlotOk digests pages slot ids) : SlotOk digests more slot ids := by
  cases slot with
  | none => exact h
  | some run => exact RunOk.mono hmore h

variable {levels : List (Option DurableRun)}

theorem Waiting.mono {more : Pages} (hmore : pages <+: more)
    {ids : List ℕ} (h : Waiting digests pages levels ids) : Waiting digests more levels ids := by
  induction levels generalizing ids with
  | nil => exact h
  | cons slot levels ih =>
    obtain ⟨mine,rest,hids,hslot,hrest⟩ := h
    exact ⟨mine,rest,hids,hslot.mono hmore,ih hrest⟩

structure Keeps (ids given : List ℕ) : Prop where
  mem_iff : ∀ id,id ∈ ids ↔ id ∈ given
  length_le : ids.length ≤ given.length

theorem Keeps.refl (ids : List ℕ) : Keeps ids ids := ⟨fun _ => Iff.rfl,Nat.le_refl _⟩

theorem Keeps.trans {a b c : List ℕ} (hab : Keeps a b) (hbc : Keeps b c) : Keeps a c :=
  ⟨fun id => (hab.mem_iff id).trans (hbc.mem_iff id),hab.length_le.trans hbc.length_le⟩

theorem Keeps.append {a b c d : List ℕ} (hab : Keeps a b) (hcd : Keeps c d) :
    Keeps (a++c) (b++d) := by
  constructor
  · intro id
    rw [mem_append,mem_append,hab.mem_iff,hcd.mem_iff]
  · rw [length_append,length_append]
    exact Nat.add_le_add hab.length_le hcd.length_le

theorem keeps_mergeUnique (l r : List ℕ) : Keeps (mergeUnique l r) (l++r) := by
  constructor
  · intro id
    rw [mem_mergeUnique,mem_append]
  · rw [length_append]
    exact length_mergeUnique_le l r

theorem keeps_comm (a b : List ℕ) : Keeps (a++b) (b++a) :=
  ⟨fun _ => by rw [mem_append,mem_append,or_comm],by simp [Nat.add_comm]⟩

theorem keeps_sortDedup (ids : List ℕ) : Keeps (sortDedup ids) ids :=
  ⟨fun _ => mem_sortDedup,length_sortDedup_le ids⟩

theorem carry_ok (binding : SpillBinding) :
    ∀ {pages : Pages} {run : DurableRun} {mine ids : List ℕ},
      Waiting digests pages levels ids → RunOk digests pages run mine →
      (∃ next more held,carry digests binding levels run pages = .ok (next,more) ∧
        pages <+: more ∧ Waiting digests more next held ∧ Keeps held (mine++ids) ∧
          chunks next = chunks levels+1 ∧ next.length = levels.length) ∨
        (carry digests binding levels run pages = .error .work ∧
          (2^64 ≤ (mine++ids).length ∨ 2^levels.length ≤ chunks levels+1)) := by
  induction levels with
  | nil =>
    intro pages run mine ids _ _
    exact .inr ⟨rfl,.inr (by simp [chunks])⟩
  | cons slot levels ih =>
    intro pages run mine ids hwaiting hrun
    obtain ⟨here,rest,rfl,hslot,hrest⟩ := hwaiting
    cases slot with
    | none =>
      obtain rfl : here = [] := hslot
      refine .inl ⟨some run::levels,pages,mine++rest,rfl,prefix_rfl,
        ⟨mine,rest,rfl,hrun,hrest⟩,Keeps.refl _,?_,rfl⟩
      rw [chunks,chunks,Nat.add_comm]
    | some previous =>
      have hmerge:=mergeRuns_ok binding hslot hrun
      have hkeeps : Keeps (mergeUnique here mine++rest) (mine++(here++rest)) := by
        rw [← append_assoc]
        exact ((keeps_mergeUnique here mine).trans (keeps_comm here mine)).append (Keeps.refl rest)
      split_ifs at hmerge with hcount
      · obtain ⟨merged,middle,hmerge,hmiddle,hmerged⟩ := hmerge
        rcases ih (hrest.mono hmiddle) hmerged with
          ⟨next,more,held,hcarry,hmore,hheld,hmem,hchunks,hlength⟩ | ⟨hcarry,hlarge⟩
        · refine .inl ⟨none::next,more,held,?_,hmiddle.trans hmore,⟨[],held,rfl,rfl,hheld⟩,
            hmem.trans hkeeps,?_,?_⟩
          · rw [carry,hmerge]
            simp only [ok_bind,hcarry]
            rfl
          · rw [chunks,chunks,hchunks]
            omega
          · rw [length_cons,length_cons,hlength]
        · refine .inr ⟨?_,?_⟩
          · rw [carry,hmerge]
            simp only [ok_bind,hcarry]
            rfl
          · rcases hlarge with hlarge | hlarge
            · exact .inl (hlarge.trans hkeeps.length_le)
            · right
              rw [length_cons,chunks,Nat.pow_succ]
              omega
      · refine .inr ⟨?_,.inl ?_⟩
        · rw [carry,hmerge]
          rfl
        · have hle:=hkeeps.length_le
          rw [length_append] at hle
          omega

theorem mergeLevels_ok (binding : SpillBinding) :
    ∀ {pages : Pages} {output : Option DurableRun} {mine ids : List ℕ},
      SlotOk digests pages output mine → Waiting digests pages levels ids →
      (∃ result more held,mergeLevels digests binding output levels pages = .ok (result,more) ∧
        SlotOk digests more result held ∧ Keeps held (mine++ids)) ∨
        (mergeLevels digests binding output levels pages = .error .work ∧
          2^64 ≤ (mine++ids).length) := by
  induction levels with
  | nil =>
    intro pages output mine ids houtput hwaiting
    obtain rfl : ids = [] := hwaiting
    rw [append_nil]
    exact .inl ⟨output,pages,mine,by rw [mergeLevels],houtput,Keeps.refl mine⟩
  | cons slot levels ih =>
    intro pages output mine ids houtput hwaiting
    obtain ⟨here,rest,rfl,hslot,hrest⟩ := hwaiting
    cases slot with
    | none =>
      obtain rfl : here = [] := hslot
      rw [mergeLevels,nil_append]
      exact ih houtput hrest
    | some run =>
      cases output with
      | none =>
        obtain rfl : mine = [] := houtput
        rw [mergeLevels,nil_append]
        exact ih hslot hrest
      | some previous =>
        have hmerge:=mergeRuns_ok binding houtput hslot
        have hkeeps : Keeps (mergeUnique mine here++rest) (mine++(here++rest)) := by
          rw [← append_assoc]
          exact (keeps_mergeUnique mine here).append (Keeps.refl rest)
        split_ifs at hmerge with hcount
        · obtain ⟨merged,middle,hmerge,hmiddle,hmerged⟩ := hmerge
          rw [mergeLevels,hmerge]
          simp only [ok_bind]
          have houtput : SlotOk digests middle (some merged) (mergeUnique mine here) := hmerged
          rcases ih houtput (hrest.mono hmiddle) with
            ⟨result,more,held,hlevels,hheld,hmem⟩ | ⟨hlevels,hlarge⟩
          · exact .inl ⟨result,more,held,hlevels,hheld,hmem.trans hkeeps⟩
          · exact .inr ⟨hlevels,hlarge.trans hkeeps.length_le⟩
        · refine .inr ⟨?_,?_⟩
          · rw [mergeLevels,hmerge]
            rfl
          · have hle:=hkeeps.length_le
            rw [length_append] at hle
            omega

end Levels

section Mark

variable {digests : Digests} {pages : Pages}

/-- The runs and the open chunk hold the identities `given`, of the `count` emitted ones. -/
structure MarkOk (digests : Digests) (pages : Pages) (mark : SpillMark) (given : List ℕ)
    (count : ℕ) : Prop where
  pending : mark.complete = false
  request : mark.requestedChunk ≤ spillChunkLimit
  chunk_lt : mark.chunk.length < mark.requestedChunk
  levels_length : mark.levels.length = maxRunLevels
  waiting : ∃ held,Waiting digests pages mark.levels held ∧
    (∀ id,id ∈ mark.chunk++held ↔ id ∈ given) ∧ (mark.chunk++held).length ≤ count
  chunks_le : chunks mark.levels+mark.chunk.length ≤ count

theorem flushChunk_ok (mark : SpillMark) {held : List ℕ} (hne : mark.chunk ≠ [])
    (hlimit : mark.chunk.length ≤ spillChunkLimit)
    (hwaiting : Waiting digests pages mark.levels held) :
    (∃ levels more kept,flushChunk digests mark pages =
        .ok ({ mark with chunk := [],levels := levels },more) ∧
      Waiting digests more levels kept ∧ Keeps kept (mark.chunk++held) ∧
        chunks levels = chunks mark.levels+1 ∧ levels.length = mark.levels.length) ∨
      (flushChunk digests mark pages = .error .work ∧
        (2^64 ≤ (mark.chunk++held).length ∨
          2^mark.levels.length ≤ chunks mark.levels+1)) := by
  have hshort:=length_sortDedup_le mark.chunk
  obtain ⟨run,middle,hwrite,hmiddle,hrun⟩ := writeSingleRun_ok digests mark.binding pages
    (sortDedup_ne_nil hne) (hshort.trans hlimit) (sortDedup_ascending mark.chunk)
  have hkeeps:=(keeps_sortDedup mark.chunk).append (Keeps.refl held)
  rw [flushChunk,hwrite]
  simp only [ok_bind]
  rcases carry_ok mark.binding (hwaiting.mono hmiddle) hrun with
    ⟨levels,more,kept,hcarry,-,hkept,hmem,hchunks,hlength⟩ | ⟨hcarry,hlarge⟩
  · left
    refine ⟨levels,more,kept,?_,hkept,hmem.trans hkeeps,hchunks,hlength⟩
    rw [hcarry]
    rfl
  · right
    refine ⟨?_,?_⟩
    · rw [hcarry]
      rfl
    · rcases hlarge with hlarge | hlarge
      · exact .inl (hlarge.trans hkeeps.length_le)
      · exact .inr hlarge

variable {mark : SpillMark} {given : List ℕ} {count : ℕ}

theorem emit_ok (h : MarkOk digests pages mark given count) (artifact : ℕ) :
    (∃ next more,emit digests mark pages artifact = .ok (next,more) ∧
      MarkOk digests more next (given++[artifact]) (count+1)) ∨
      (emit digests mark pages artifact = .error .work ∧ 2^64 ≤ count+1) := by
  obtain ⟨held,hwaiting,hmem,hlength⟩ := h.waiting
  have hchunks:=h.chunks_le
  rw [length_append] at hlength
  rw [emit,if_neg (by simp [h.pending])]
  split_ifs with hrepeated
  · -- the last identity of the chunk is emitted once more
    refine .inl ⟨mark,pages,rfl,h.pending,h.request,h.chunk_lt,h.levels_length,
      ⟨held,hwaiting,?_,?_⟩,?_⟩
    · intro id
      have hlast:=(hmem artifact).mp
        (mem_append_left held (mem_of_getLast? hrepeated))
      rw [hmem,mem_append,mem_singleton]
      constructor
      · exact Or.inl
      · intro hid
        rcases hid with hid | rfl
        · exact hid
        · exact hlast
    · rw [length_append]
      omega
    · omega
  · have hgiven : ∀ id,id ∈ (mark.chunk++[artifact])++held ↔ id ∈ given++[artifact] := by
      intro id
      have hid:=hmem id
      simp only [mem_append] at hid ⊢
      rw [← hid,or_right_comm]
    have hlt:=h.chunk_lt
    have hrequest:=h.request
    have hgrown : (mark.chunk++[artifact]).length = mark.chunk.length+1 := by simp
    rw [settle]
    simp only
    split_ifs with hfull hdistinct
    · -- a full chunk without repetition
      have hflush:=flushChunk_ok { mark with chunk := sortDedup (mark.chunk++[artifact]) }
        (sortDedup_ne_nil (by simp)) (by simp only; omega) hwaiting
      simp only at hflush
      have hkeeps:=(keeps_sortDedup (mark.chunk++[artifact])).append (Keeps.refl held)
      have hle:=hkeeps.length_le
      simp only [length_append,length_singleton] at hle
      rcases hflush with ⟨levels,more,kept,hflush,hkept,hkeptMem,hnext,hnextLength⟩ |
        ⟨hflush,hlarge⟩
      · refine .inl ⟨_,more,hflush,h.pending,h.request,?_,hnextLength.trans h.levels_length,
          ⟨kept,hkept,?_,?_⟩,?_⟩
        · simp only [length_nil]
          omega
        · intro id
          rw [nil_append,(hkeptMem.trans hkeeps).mem_iff,hgiven]
        · have hkeptLength:=hkeptMem.length_le
          simp only [length_append,nil_append] at hkeptLength ⊢
          omega
        · simp only [hnext,length_nil]
          omega
      · refine .inr ⟨hflush,?_⟩
        rcases hlarge with hlarge | hlarge
        · rw [length_append] at hlarge
          omega
        · rw [h.levels_length] at hlarge
          exact hlarge.trans (by omega)
    · -- a full chunk that shrinks
      have hshort:=length_sortDedup_le (mark.chunk++[artifact])
      have hkeeps:=(keeps_sortDedup (mark.chunk++[artifact])).append (Keeps.refl held)
      refine .inl ⟨_,pages,rfl,h.pending,h.request,?_,h.levels_length,
        ⟨held,hwaiting,fun id => (hkeeps.mem_iff id).trans (hgiven id),?_⟩,?_⟩
      · simp only
        omega
      · have hle:=hkeeps.length_le
        simp only [length_append,length_singleton] at hle ⊢
        omega
      · simp only
        omega
    · refine .inl ⟨_,pages,rfl,h.pending,h.request,?_,h.levels_length,
        ⟨held,hwaiting,hgiven,?_⟩,?_⟩
      · simp only
        omega
      · rw [length_append,hgrown]
        omega
      · simp only
        omega

theorem emitAll_ok (artifacts : List ℕ) :
    ∀ {pages : Pages} {mark : SpillMark} {given : List ℕ} {count : ℕ},
      MarkOk digests pages mark given count →
      (∃ next more,emitAll digests mark pages artifacts = .ok (next,more) ∧
        MarkOk digests more next (given++artifacts) (count+artifacts.length)) ∨
        (emitAll digests mark pages artifacts = .error .work ∧
          2^64 ≤ count+artifacts.length) := by
  induction artifacts with
  | nil =>
    intro pages mark given count h
    rw [append_nil]
    exact .inl ⟨mark,pages,rfl,h⟩
  | cons artifact artifacts ih =>
    intro pages mark given count h
    rw [emitAll,length_cons]
    rcases emit_ok h artifact with ⟨middle,more,hemit,hmiddle⟩ | ⟨hemit,hlarge⟩
    · rw [hemit]
      simp only [ok_bind]
      have hrest:=ih hmiddle
      rwa [append_assoc,singleton_append,Nat.add_assoc,Nat.add_comm 1] at hrest
    · right
      rw [hemit]
      exact ⟨rfl,hlarge.trans (by omega)⟩

theorem finish_ok (h : MarkOk digests pages mark given count) :
    (∃ result more held,finish digests mark pages = .ok (result,more) ∧
      SlotOk digests more result held ∧ ∀ id,id ∈ held ↔ id ∈ given) ∨
      (finish digests mark pages = .error .work ∧ 2^64 ≤ count) := by
  obtain ⟨held,hwaiting,hmem,hlength⟩ := h.waiting
  have hnone : SlotOk digests pages none [] := rfl
  rw [finish,failIf_neg _ (by simp [h.pending]),ok_bind,flushLast]
  split_ifs with hempty
  · rw [List.isEmpty_iff.mp hempty,nil_append] at hmem hlength
    simp only [ok_bind]
    rcases mergeLevels_ok mark.binding hnone hwaiting with
      ⟨result,more,kept,hmerge,hkept,hkeeps⟩ | ⟨hmerge,hlarge⟩
    · exact .inl ⟨result,more,kept,hmerge,hkept,
        fun id => (hkeeps.mem_iff id).trans (hmem id)⟩
    · exact .inr ⟨hmerge,hlarge.trans hlength⟩
  · have hne : mark.chunk ≠ [] := fun hnil => hempty (by rw [hnil]; rfl)
    have hpositive:=length_pos_iff.mpr hne
    have hchunks:=h.chunks_le
    rcases flushChunk_ok mark hne (h.chunk_lt.le.trans h.request) hwaiting with
      ⟨levels,middle,kept,hflush,hkept,hkeeps,-,-⟩ | ⟨hflush,hlarge⟩
    · rw [hflush]
      simp only [ok_bind]
      have hnone : SlotOk digests middle none [] := rfl
      rcases mergeLevels_ok mark.binding hnone hkept with
        ⟨result,more,last,hmerge,hlast,hlastKeeps⟩ | ⟨hmerge,hlarge⟩
      · exact .inl ⟨result,more,last,hmerge,hlast,
          fun id => ((hlastKeeps.trans hkeeps).mem_iff id).trans (hmem id)⟩
      · exact .inr ⟨hmerge,(hlarge.trans hkeeps.length_le).trans hlength⟩
    · right
      rw [hflush]
      refine ⟨rfl,?_⟩
      rcases hlarge with hlarge | hlarge
      · exact hlarge.trans hlength
      · rw [h.levels_length] at hlarge
        exact hlarge.trans (by omega)

theorem waiting_replicate (count : ℕ) :
    Waiting digests pages (List.replicate count none) [] := by
  induction count with
  | zero => rfl
  | succ count ih => exact ⟨[],[],rfl,rfl,ih⟩

theorem chunks_replicate (count : ℕ) : chunks (List.replicate count none) = 0 := by
  induction count with
  | zero => rfl
  | succ count ih => rw [replicate_succ,chunks,ih]

theorem new_ok (digests : Digests) (binding : SpillBinding) (pages : Pages) {requestedChunk : ℕ}
    (hlow : 1 ≤ requestedChunk) (hhigh : requestedChunk ≤ 256) :
    ∃ mark,SpillMark.new binding requestedChunk = .ok mark ∧ MarkOk digests pages mark [] 0 := by
  refine ⟨_,if_neg (by simp only [spillChunkLimit]; omega),rfl,hhigh,hlow,
    length_replicate,⟨[],waiting_replicate _,by simp,by simp⟩,?_⟩
  rw [chunks_replicate]
  exact Nat.le_refl 0

structure MarkExact (digests : Digests) (pages : Pages) (run : DurableRun) (artifacts : List ℕ) :
    Prop where
  read : ∃ ids,readRun digests pages run = .ok ids ∧ ids.Pairwise (· < ·) ∧
    ∀ id,id ∈ ids ↔ id ∈ artifacts
  contains_iff : ∀ id,contains pages run id = .ok (decide (id ∈ artifacts))

theorem markExact_of_runOk {run : DurableRun} {ids artifacts : List ℕ}
    (h : RunOk digests pages run ids) (hmem : ∀ id,id ∈ ids ↔ id ∈ artifacts) :
    MarkExact digests pages run artifacts where
  read := ⟨ids,readRun_ok h,h.sound.ascending,hmem⟩
  contains_iff := by
    intro id
    rw [contains_ok h,decide_eq_decide.mpr (hmem id)]

end Mark

/-- A mark is exact for every order and repetition. Only a mark of more identities than a run
can count is refused. -/
theorem markAll_exact (digests : Digests) (binding : SpillBinding) (requestedChunk : ℕ)
    (hlow : 1 ≤ requestedChunk) (hhigh : requestedChunk ≤ 256) (pages : Pages)
    (artifacts : List ℕ) :
    (∃ result more,markAll digests binding requestedChunk pages artifacts = .ok (result,more) ∧
      (result = none ↔ artifacts = []) ∧
        ∀ run ∈ result,MarkExact digests more run artifacts) ∨
      (2^64 ≤ artifacts.length ∧
        markAll digests binding requestedChunk pages artifacts = .error .work) := by
  obtain ⟨mark,hnew,hmark⟩ := new_ok digests binding pages hlow hhigh
  rw [markAll,hnew]
  simp only [ok_bind]
  rcases emitAll_ok artifacts hmark with
    ⟨next,middle,hemit,hnext⟩ | ⟨hemit,hlarge⟩
  · rw [nil_append,Nat.zero_add] at hnext
    rw [hemit]
    simp only [ok_bind]
    rcases finish_ok hnext with ⟨result,more,held,hfinish,hslot,hmem⟩ | ⟨hfinish,hlarge⟩
    · left
      refine ⟨result,more,hfinish,?_,?_⟩
      · cases result with
        | none =>
          obtain rfl : held = [] := hslot
          refine iff_of_true rfl (eq_nil_iff_forall_not_mem.mpr ?_)
          intro id hid
          exact not_mem_nil ((hmem id).mpr hid)
        | some run =>
          refine iff_of_false (by simp) ?_
          rintro rfl
          obtain ⟨id,hid⟩ := exists_mem_of_ne_nil held (RunOk.ne_nil hslot)
          exact not_mem_nil ((hmem id).mp hid)
      · intro run hrun
        cases hrun
        exact markExact_of_runOk hslot hmem
    · exact .inr ⟨hlarge,hfinish⟩
  · right
    rw [hemit]
    refine ⟨?_,rfl⟩
    omega

theorem markAll_exact_five :
    ∃ run more,markAll ⟨List.sum,List.length⟩ ⟨1,1,4,5,9,2⟩ 2 [] [3,1,3,2,1] =
        .ok (some run,more) ∧
      MarkExact ⟨List.sum,List.length⟩ more run [3,1,3,2,1] := by
  rcases markAll_exact ⟨List.sum,List.length⟩ ⟨1,1,4,5,9,2⟩ 2 (by decide) (by decide) []
    [3,1,3,2,1] with ⟨result,more,hmark,hnone,hexact⟩ | ⟨hlarge,-⟩
  · cases result with
    | none => cases hnone.mp rfl
    | some run => exact ⟨run,more,hmark,hexact run rfl⟩
  · exact absurd hlarge (by decide)

end Zeppelin.Reclaim
