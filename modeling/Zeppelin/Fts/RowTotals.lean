import Zeppelin.Fts.PruneSpec

namespace Zeppelin.Fts
open List

variable {R : Type} [AddCommGroup R]

theorem filter_range_first {n row : ℕ} {p q : ℕ → Bool} (hrow : row < n) (hp : p row = true)
    (hbelow : ∀ r < row,p r = false) (hq : ∀ r,q r = (decide (row < r) && p r)) :
    (List.range n).filter p = row::(List.range n).filter q := by
  obtain ⟨rest,rfl⟩ : ∃ rest,n = row+(rest+1) := ⟨n-row-1,by omega⟩
  rw [range_eq_range',← range'_append_1,Nat.zero_add,range'_succ,
    filter_append,filter_append,filter_cons_of_pos hp,
    filter_cons_of_neg (by simp [hq])]
  have hfront : ∀ f : ℕ → Bool,(∀ r < row,f r = false) →
      (List.range' 0 row).filter f = [] := by
    intro f hf
    rw [filter_eq_nil_iff]
    intro r hr
    rw [mem_range'_1] at hr
    simp [hf r (by omega)]
  rw [hfront p hbelow,hfront q fun r hr => by simp [hq,hbelow r hr],nil_append,
    nil_append]
  congr 1
  refine filter_congr fun r hr => ?_
  rw [mem_range'_1] at hr
  rw [hq,decide_eq_true (by omega),Bool.true_and]

section Postings
variable {fields : List (FieldId × List ℕ)} {rowCount : ℕ} {lengthAt : ℕ → ℕ} {s : TermStream}

theorem drain_eq {fuel : ℕ} (h : StreamWf fields rowCount lengthAt s) (hfuel : left s.runs < fuel) :
    drain fuel s =
      ((List.range rowCount).filter fun r => s.tf r ≠ 0).map fun r => (r,s.tf r) := by
  induction fuel generalizing s with
  | zero => omega
  | succ fuel ih =>
    rw [drain]
    cases hhead : s.currentRow with
    | none =>
      have hnil : ((List.range rowCount).filter fun r => s.tf r ≠ 0) = [] := by
        rw [filter_eq_nil_iff]
        intro r _
        simpa using h.tf_none hhead r
      rw [hnil]
      rfl
    | some row =>
      obtain ⟨hwf,htf,hless⟩ := h.advance hhead
      have hpos:=h.head_pos row hhead
      rw [filter_range_first (q := fun r => s.advance.tf r ≠ 0) (h.row_lt hpos.ne')
        (by simpa using hpos.ne') (fun r hr => by simp [h.tf_below hhead hr])
        fun r => by by_cases hr : r ≤ row <;> simp [htf,hr,Nat.lt_of_not_le]]
      simp only
      rw [h.currentTf hhead,Option.getD_some,ih hwf (by omega),map_cons]
      congr 1
      refine map_congr_left fun r hr => ?_
      have hmem:=(mem_filter.mp hr).2
      rw [htf] at hmem ⊢
      split
      · rename_i hle
        simp [hle] at hmem
      · rfl

theorem postings_eq (h : StreamWf fields rowCount lengthAt s) : s.postings =
    ((List.range rowCount).filter fun r => s.tf r ≠ 0).map fun r => (r,s.tf r) :=
  drain_eq h (Nat.lt_succ_self _)

end Postings

def entriesOf [LinearOrder R] (lengths : List ℕ) (term : TermStream × TermScorer R) :
    List (ℕ × R) :=
  term.1.postings.map fun p => (p.1,term.2.score p.2 (lengthOf lengths p.1))

def occurs (entries : List (ℕ × R)) (row : ℕ) : Prop := ∃ e ∈ entries,e.1 = row

def total (entries : List (ℕ × R)) (row : ℕ) : R :=
  ((entries.filter fun e => e.1 = row).map Prod.snd).sum

theorem total_append (xs ys : List (ℕ × R)) (row : ℕ) :
    total (xs++ys) row = total xs row+total ys row := by
  rw [total,filter_append,map_append,sum_append]
  rfl

theorem total_singleton (e : ℕ × R) (row : ℕ) : total [e] row = if e.1 = row then e.2 else 0 := by
  by_cases h : e.1 = row <;> simp [total,h]

variable {row : ℕ} {α : Type}

omit [AddCommGroup R] in
theorem occurs_append {xs ys : List (ℕ × R)} :
    occurs (xs++ys) row ↔ occurs xs row ∨ occurs ys row := by
  simp only [occurs,mem_append,or_and_right,exists_or]

omit [AddCommGroup R] in
theorem occurs_singleton {e : ℕ × R} : occurs [e] row ↔ e.1 = row := by
  simp [occurs]

theorem total_of_not_occurs {entries : List (ℕ × R)} (h : ¬ occurs entries row) :
    total entries row = 0 := by
  have hnil : (entries.filter fun e => e.1 = row) = [] := by
    rw [filter_eq_nil_iff]
    intro e he heq
    exact h ⟨e,he,by simpa using heq⟩
  rw [total,hnil]
  rfl

theorem total_flatMap (f : α → List (ℕ × R)) (xs : List α) (row : ℕ) :
    total (xs.flatMap f) row = (xs.map fun x => total (f x) row).sum := by
  induction xs with
  | nil => rfl
  | cons x xs ih => rw [flatMap_cons,total_append,ih,map_cons,sum_cons]

omit [AddCommGroup R] in
theorem occurs_flatMap {f : α → List (ℕ × R)} {xs : List α} :
    occurs (xs.flatMap f) row ↔ ∃ x ∈ xs,occurs (f x) row := by
  simp only [occurs,mem_flatMap]
  constructor
  · rintro ⟨e,⟨x,hx,he⟩,heq⟩
    exact ⟨x,hx,e,he,heq⟩
  · rintro ⟨x,hx,e,he,heq⟩
    exact ⟨e,⟨x,hx,he⟩,heq⟩

section Terms
variable [LinearOrder R] {fields : List (FieldId × List ℕ)} {rowCount : ℕ} {lengths : List ℕ}
  {term : TermStream × TermScorer R}

theorem occurs_entriesOf (h : StreamWf fields rowCount (lengthOf lengths) term.1) {row : ℕ} :
    occurs (entriesOf lengths term) row ↔ term.1.tf row ≠ 0 := by
  unfold occurs entriesOf
  rw [postings_eq h]
  constructor
  · rintro ⟨e,he,rfl⟩
    obtain ⟨p,hp,rfl⟩ := mem_map.mp he
    obtain ⟨r,hr,rfl⟩ := mem_map.mp hp
    simpa using (mem_filter.mp hr).2
  · intro htf
    have hmem : row ∈ (List.range rowCount).filter fun r => term.1.tf r ≠ 0 :=
      mem_filter.mpr ⟨mem_range.mpr (h.row_lt htf),by simpa using htf⟩
    exact ⟨_,mem_map_of_mem (mem_map_of_mem hmem),rfl⟩

theorem total_entriesOf (h : StreamWf fields rowCount (lengthOf lengths) term.1) (row : ℕ) :
    total (entriesOf lengths term) row = term.2.score (term.1.tf row) (lengthOf lengths row) := by
  have hrange : ∀ n,total (((List.range n).filter fun r => term.1.tf r ≠ 0).map fun r =>
      (r,term.2.score (term.1.tf r) (lengthOf lengths r))) row =
      if row < n then term.2.score (term.1.tf row) (lengthOf lengths row) else 0 := by
    intro n
    induction n with
    | zero => rfl
    | succ n ih =>
      rw [range_succ,filter_append,map_append,total_append,ih]
      by_cases htf : term.1.tf n = 0
      · rw [filter_cons_of_neg (by simpa using htf)]
        by_cases heq : row = n
        · simp [total,heq,htf,term.2.absent]
        · have hiff : row < n+1 ↔ row < n := by omega
          simp [total,hiff]
      · rw [filter_cons_of_pos (by simpa using htf),filter_nil,map_cons,
          map_nil,total_singleton]
        by_cases heq : row = n
        · simp [heq]
        · have hiff : row < n+1 ↔ row < n := by omega
          simp [hiff,Ne.symm heq]
  have hentries : entriesOf lengths term =
      ((List.range rowCount).filter fun r => term.1.tf r ≠ 0).map fun r =>
        (r,term.2.score (term.1.tf r) (lengthOf lengths r)) := by
    rw [entriesOf,postings_eq h,map_map]
    rfl
  rw [hentries,hrange]
  split
  · rfl
  · rename_i hge
    have htf : term.1.tf row = 0 := by
      by_contra hne
      exact hge (h.row_lt hne)
    rw [htf,term.2.absent]

end Terms

omit [AddCommGroup R] in
theorem eq_of_ascending {xs ys : List (ℕ × R)} (hxs : xs.Pairwise fun p q => p.1 < q.1)
    (hys : ys.Pairwise fun p q => p.1 < q.1) (hmem : ∀ p,p ∈ xs ↔ p ∈ ys) : xs = ys := by
  have hnodup : ∀ zs : List (ℕ × R),zs.Pairwise (fun p q => p.1 < q.1) → zs.Nodup := fun zs h =>
    h.imp fun {p q} hlt heq => absurd hlt (by rw [heq]; exact lt_irrefl _)
  have hperm : xs.Perm ys := (perm_ext_iff_of_nodup (hnodup xs hxs) (hnodup ys hys)).mpr hmem
  exact hperm.eq_of_pairwise (fun p q _ _ h₁ h₂ => absurd h₁ (by omega)) hxs hys

structure Totals (entries totals : List (ℕ × R)) : Prop where
  ascending : totals.Pairwise fun p q => p.1 < q.1
  mem : ∀ row x,(row,x) ∈ totals ↔ occurs entries row ∧ x = total entries row

variable {totals entries : List (ℕ × R)} {n : ℕ} {row : ℕ} {score : R} {present : ℕ → Bool}
  {f : ℕ → R} {state : List R × List ℕ}

theorem mem_addTotal (h : totals.Pairwise fun p q => p.1 < q.1) {r : ℕ} {x : R} :
    (r,x) ∈ addTotal row score totals ↔
      r ≠ row ∧ (r,x) ∈ totals ∨
      r = row ∧ ((∃ y,(row,y) ∈ totals ∧ x = y+score) ∨
        (∀ y,(row,y) ∉ totals) ∧ x = score) := by
  induction totals with
  | nil => simp [addTotal]
  | cons p rest ih =>
    obtain ⟨key,value⟩ := p
    rw [pairwise_cons] at h
    have hrest : ∀ {r y},(r,y) ∈ rest → key < r := fun hmem => h.1 _ hmem
    rw [addTotal]
    split
    · rename_i heq
      subst heq
      have habsent : ∀ y,(key,y) ∉ rest := fun y hy => absurd (hrest hy) (lt_irrefl _)
      by_cases hr : r = key
      · subst hr
        simp [habsent]
      · simp [hr]
    · rename_i hne
      split
      · rename_i hlt
        have habsent : ∀ y,(row,y) ∉ rest := fun y hy => by
          have := hrest hy
          omega
        by_cases hr : r = row
        · subst hr
          simp [habsent,Ne.symm hne]
        · simp [hr]
      · rw [mem_cons,ih h.2]
        by_cases hr : r = row
        · subst hr
          simp [Ne.symm hne]
        · simp [hr]

theorem addTotal_ascending (h : totals.Pairwise fun p q => p.1 < q.1) :
    (addTotal row score totals).Pairwise fun p q => p.1 < q.1 := by
  induction totals with
  | nil => exact pairwise_singleton _ _
  | cons p rest ih =>
    obtain ⟨key,value⟩ := p
    have hcons:=pairwise_cons.mp h
    rw [addTotal]
    split
    · exact pairwise_cons.mpr ⟨hcons.1,hcons.2⟩
    · rename_i hne
      split
      · rename_i hlt
        refine pairwise_cons.mpr ⟨fun q hq => ?_,h⟩
        rcases mem_cons.mp hq with rfl | hq
        · exact hlt
        · exact hlt.trans (hcons.1 q hq)
      · rename_i hge
        refine pairwise_cons.mpr ⟨fun q hq => ?_,ih hcons.2⟩
        obtain ⟨r,x⟩ := q
        rcases (mem_addTotal hcons.2).mp hq with ⟨-,hmem⟩ | ⟨rfl,-⟩
        · exact hcons.1 _ hmem
        · change key < r
          omega

theorem Totals.add (h : Totals entries totals) (e : ℕ × R) :
    Totals (entries++[e]) (addTotal e.1 e.2 totals) := by
  refine ⟨addTotal_ascending h.ascending,fun row x => ?_⟩
  rw [mem_addTotal h.ascending,occurs_append,occurs_singleton,total_append,total_singleton,
    h.mem]
  by_cases hrow : row = e.1
  · subst hrow
    by_cases hoccurs : occurs entries e.1
    · simp [h.mem,hoccurs]
    · simp [h.mem,hoccurs,total_of_not_occurs hoccurs]
  · simp [hrow,Ne.symm hrow]

theorem totals_foldl (entries : List (ℕ × R)) :
    Totals entries (entries.foldl (fun totals e => addTotal e.1 e.2 totals) []) := by
  induction entries using List.reverseRecOn with
  | nil => exact ⟨.nil,fun row x => by simp [occurs]⟩
  | append_singleton entries e ih =>
    rw [foldl_append]
    exact ih.add e

theorem totals_eq (hpresent : ∀ row,present row = true ↔ occurs entries row)
    (hn : ∀ row,occurs entries row → row < n) (hf : ∀ row,total entries row = f row) :
    entries.foldl (fun totals e => addTotal e.1 e.2 totals) [] =
      ((List.range n).filter present).map fun row => (row,f row) := by
  have htotals:=totals_foldl entries
  refine eq_of_ascending htotals.ascending ?_ fun p => ?_
  · rw [pairwise_map]
    exact pairwise_lt_range.filter _
  · obtain ⟨row,x⟩ := p
    rw [htotals.mem,mem_map,hf]
    constructor
    · rintro ⟨hoccurs,rfl⟩
      exact ⟨row,mem_filter.mpr ⟨mem_range.mpr (hn row hoccurs),
        (hpresent row).mpr hoccurs⟩,rfl⟩
    · rintro ⟨r,hr,heq⟩
      obtain ⟨rfl,rfl⟩ := Prod.mk.inj heq
      exact ⟨(hpresent r).mp (mem_filter.mp hr).2,rfl⟩

structure Touched (n : ℕ) (entries : List (ℕ × R)) (state : List R × List ℕ) : Prop where
  length : state.1.length = n
  score : ∀ row < n,state.1[row]?.getD 0 = total entries row
  touched : ∀ row,row ∈ state.2 ↔ occurs entries row

theorem Touched.scoreRow [LinearOrder R] (h : Touched n entries state) (e : ℕ × R) (he : e.1 < n) :
    Touched n (entries++[e]) (scoreRow state e.1 e.2) := by
  have hlt : e.1 < state.1.length := h.length ▸ he
  have hentry:=h.score e.1 he
  rw [getElem?_eq_getElem hlt,Option.getD_some] at hentry
  rw [Fts.scoreRow,getElem?_eq_getElem hlt,hentry]
  refine ⟨by simpa using h.length,fun row hrow => ?_,fun row => ?_⟩
  · rw [total_append,total_singleton]
    by_cases heq : e.1 = row
    · subst heq
      simp [hlt]
    · simp only
      rw [getElem?_set_ne heq,h.score row hrow,if_neg heq,add_zero]
  · rw [occurs_append,occurs_singleton]
    simp only
    split
    · rw [mem_append,h.touched,mem_singleton,eq_comm]
    · rename_i hne
      rw [h.touched]
      constructor
      · exact .inl
      · rintro (hoccurs | rfl)
        · exact hoccurs
        · by_contra habsent
          exact hne (total_of_not_occurs habsent)

theorem touched_foldl [LinearOrder R] (entries : List (ℕ × R)) (hn : ∀ e ∈ entries,e.1 < n) : Touched n entries
      (entries.foldl (fun state e => scoreRow state e.1 e.2) (List.replicate n 0,[])) := by
  induction entries using List.reverseRecOn with
  | nil =>
    refine ⟨length_replicate,fun row hrow => ?_,fun row => by simp [occurs]⟩
    simp [hrow,total]
  | append_singleton entries e ih =>
    rw [foldl_append]
    exact (ih fun e he => hn e (by simp [he])).scoreRow e (hn e (by simp))

theorem ascending_dedup (rows : List ℕ) :
    ((rows.mergeSort (· ≤ ·)).dedup).Pairwise (· < ·) := by
  have hsorted : (rows.mergeSort (· ≤ ·)).dedup.Pairwise (· ≤ ·) :=
    (pairwise_mergeSort' (· ≤ ·) rows).sublist (dedup_sublist _)
  have hnodup:=nodup_dedup (rows.mergeSort (· ≤ ·))
  exact hsorted.imp₂ (fun a b hle hne => lt_of_le_of_ne hle hne) hnodup

theorem Touched.hits {ordinal : ℕ} (h : Touched n entries state)
    (hpresent : ∀ row,present row = true ↔ occurs entries row)
    (hn : ∀ row,occurs entries row → row < n)
    (hf : ∀ row,occurs entries row → total entries row = f row) : touchedHits ordinal state =
      ((List.range n).filter present).map fun row => ⟨⟨segmentIndex ordinal,row⟩,f row⟩ := by
  have hrows : (state.2.mergeSort (· ≤ ·)).dedup = (List.range n).filter present := by
    refine (perm_ext_iff_of_nodup (nodup_dedup _)
      (nodup_range.filter _)).mpr (fun row => ?_) |>.eq_of_pairwise
        (fun a b _ _ h₁ h₂ => absurd h₁ (by omega)) (ascending_dedup _)
        (pairwise_lt_range.filter _)
    rw [List.mem_dedup,mem_mergeSort,h.touched,mem_filter,mem_range,hpresent]
    exact ⟨fun hoccurs => ⟨hn row hoccurs,hoccurs⟩,fun hmem => hmem.2⟩
  unfold touchedHits
  rw [hrows]
  refine map_congr_left fun row hrow => ?_
  obtain ⟨hrange,hmem⟩ := mem_filter.mp hrow
  have hoccurs:=(hpresent row).mp hmem
  rw [h.score row (mem_range.mp hrange),hf row hoccurs]

end Zeppelin.Fts
