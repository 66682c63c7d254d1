import Mathlib.Data.List.Sort

namespace Zeppelin.Collections
open List

def partitionPoint (below : ℕ → Bool) (low high : ℕ) : ℕ :=
  if low < high then
    if below (low+(high-low) / 2) then
      partitionPoint below (low+(high-low) / 2+1) high
    else partitionPoint below low (low+(high-low) / 2)
  else low
termination_by high-low

theorem le_partitionPoint (below : ℕ → Bool) (low high : ℕ) :
    low ≤ partitionPoint below low high := by
  fun_induction partitionPoint below low high with
  | case1 low high _ _ ih => omega
  | case2 low high _ _ ih => exact ih
  | case3 => exact Nat.le_refl _

theorem partitionPoint_le (below : ℕ → Bool) {low high : ℕ} (h : low ≤ high) :
    partitionPoint below low high ≤ high := by
  fun_induction partitionPoint below low high with
  | case1 low high _ _ ih => exact ih (by omega)
  | case2 low high _ _ ih => have := ih (by omega); omega
  | case3 => exact h

section Monotone
variable {below : ℕ → Bool} (mono : ∀ i j,i ≤ j → below j = true → below i = true)
include mono

theorem below_of_lt_partitionPoint {low high i : ℕ} (hlow : low ≤ i)
    (h : i < partitionPoint below low high) : below i = true := by
  fun_induction partitionPoint below low high with
  | case1 low high _ hmid ih =>
    by_cases hi : i ≤ low+(high-low) / 2
    · exact mono _ _ hi hmid
    · exact ih (by omega) h
  | case2 low high _ _ ih => exact ih hlow h
  | case3 => omega

theorem partitionPoint_fails {low high i : ℕ} (hpoint : partitionPoint below low high ≤ i)
    (h : i < high) : below i = false := by
  fun_induction partitionPoint below low high with
  | case1 low high _ _ ih => exact ih hpoint h
  | case2 low high _ hmid ih =>
    by_cases hi : i < low+(high-low) / 2
    · exact ih hpoint hi
    · by_contra hbelow
      exact hmid (mono _ _ (Nat.le_of_not_lt hi) (by simpa using hbelow))
  | case3 => omega

end Monotone

/-- `slice::partition_point` -/
def slicePartitionPoint {α : Type} (p : α → Bool) (rows : List α) : ℕ :=
  partitionPoint (fun i => (rows[i]?).any p) 0 rows.length

section Partition
variable {α : Type} {p : α → Bool} {rows : List α}

theorem any_getElem? {i : ℕ} (h : i < rows.length) : (rows[i]?).any p = p rows[i] := by
  rw [getElem?_eq_getElem h,Option.any_some]

theorem any_getElem?_mono (h : rows.Pairwise fun a b => p b = true → p a = true) (i j : ℕ)
    (hij : i ≤ j) (hj : (rows[j]?).any p = true) : (rows[i]?).any p = true := by
  by_cases hlt : j < rows.length
  · rw [any_getElem? hlt] at hj
    rw [any_getElem? (hij.trans_lt hlt)]
    rcases hij.eq_or_lt with rfl | hij
    · exact hj
    · exact pairwise_iff_getElem.mp h i j _ hlt hij hj
  · rw [getElem?_eq_none (Nat.le_of_not_lt hlt)] at hj
    cases hj

theorem take_slicePartitionPoint (h : rows.Pairwise fun a b => p b = true → p a = true) :
    ∀ a ∈ rows.take (slicePartitionPoint p rows),p a = true := by
  intro a ha
  obtain ⟨i,hi,rfl⟩ := mem_iff_getElem.mp ha
  rw [length_take] at hi
  have hlt : i < rows.length := by omega
  have hpoint : i < partitionPoint (fun j => rows[j]?.any p) 0 rows.length := by
    rw [← slicePartitionPoint]
    omega
  have hbelow:=below_of_lt_partitionPoint (any_getElem?_mono h) (Nat.zero_le i) hpoint
  rw [any_getElem? hlt] at hbelow
  rw [getElem_take]
  exact hbelow

theorem drop_slicePartitionPoint (h : rows.Pairwise fun a b => p b = true → p a = true) :
    ∀ a ∈ rows.drop (slicePartitionPoint p rows),p a = false := by
  intro a ha
  obtain ⟨i,hi,rfl⟩ := mem_iff_getElem.mp ha
  rw [length_drop] at hi
  have hlt : slicePartitionPoint p rows+i < rows.length := by omega
  have hfails:=partitionPoint_fails (any_getElem?_mono h)
    (Nat.le_add_right (slicePartitionPoint p rows) i) hlt
  rw [any_getElem? hlt] at hfails
  rw [getElem_drop]
  exact hfails

theorem lt_findIdx_not_iff (h : rows.Pairwise fun a b => p b = true → p a = true) {i : ℕ} {a : α}
    (hget : rows[i]? = some a) : (i < rows.findIdx fun b => !p b) ↔ p a = true := by
  obtain ⟨hi,rfl⟩ := List.getElem?_eq_some_iff.mp hget
  constructor
  · intro hlt
    simpa using not_of_lt_findIdx hlt
  · intro hp
    by_contra hge
    have hlt : (rows.findIdx fun b => !p b) < rows.length := by omega
    have hfails : p rows[rows.findIdx fun b => !p b] = false := by
      simpa using findIdx_getElem (w := hlt)
    rcases Nat.eq_or_lt_of_le (Nat.le_of_not_lt hge) with hsame | hbelow
    · simp only [hsame,hp,Bool.true_eq_false] at hfails
    · rw [pairwise_iff_getElem.mp h _ i hlt hi hbelow hp] at hfails
      cases hfails

theorem slicePartitionPoint_eq_findIdx (h : rows.Pairwise fun a b => p b = true → p a = true) :
    slicePartitionPoint p rows = rows.findIdx fun b => !p b := by
  have hle : slicePartitionPoint p rows ≤ rows.length := partitionPoint_le _ (Nat.zero_le _)
  rcases Nat.lt_trichotomy (slicePartitionPoint p rows) (rows.findIdx fun b => !p b)
    with hlt | heq | hgt
  · have hlen:=hlt.trans_le findIdx_le_length
    have hmem : rows[slicePartitionPoint p rows] ∈ rows.drop (slicePartitionPoint p rows) := by
      rw [drop_eq_getElem_cons hlen]
      exact mem_cons_self
    have hp:=(lt_findIdx_not_iff h (getElem?_eq_getElem hlen)).mp hlt
    rw [drop_slicePartitionPoint h _ hmem] at hp
    cases hp
  · exact heq
  · have hlen:=hgt.trans_le hle
    have hmem : rows[rows.findIdx fun b => !p b] ∈ rows.take (slicePartitionPoint p rows) :=
      mem_take_iff_getElem.mpr ⟨_,Nat.lt_min.mpr ⟨hgt,hlen⟩,rfl⟩
    have hp:=take_slicePartitionPoint h _ hmem
    exact absurd ((lt_findIdx_not_iff h (getElem?_eq_getElem hlen)).mpr hp) (Nat.lt_irrefl _)

theorem drop_eq_filter (h : rows.Pairwise fun a b => p b = true → p a = true) :
    rows.drop (slicePartitionPoint p rows) = rows.filter fun a => !p a := by
  have htake : (rows.take (slicePartitionPoint p rows)).filter (fun a => !p a) = [] := by
    apply filter_eq_nil_iff.mpr
    intro a ha
    rw [take_slicePartitionPoint h a ha]
    exact Bool.false_ne_true
  have hdrop : (rows.drop (slicePartitionPoint p rows)).filter (fun a => !p a) =
      rows.drop (slicePartitionPoint p rows) := by
    apply filter_eq_self.mpr
    intro a ha
    rw [drop_slicePartitionPoint h a ha]
    rfl
  conv_rhs => rw [← take_append_drop (slicePartitionPoint p rows) rows]
  rw [filter_append,htake,hdrop,nil_append]

theorem drop_take_eq_filter {q : α → Bool} (hp : rows.Pairwise fun a b => p b = true → p a = true)
    (hq : rows.Pairwise fun a b => q b = true → q a = true) :
    (rows.take (slicePartitionPoint q rows)).drop (slicePartitionPoint p rows) =
      rows.filter fun a => q a && !p a := by
  have htake : ((rows.drop (slicePartitionPoint p rows)).take
      (slicePartitionPoint q rows-slicePartitionPoint p rows)).filter q =
      (rows.drop (slicePartitionPoint p rows)).take
        (slicePartitionPoint q rows-slicePartitionPoint p rows) := by
    apply filter_eq_self.mpr
    intro a ha
    rw [← drop_take] at ha
    exact take_slicePartitionPoint hq a (mem_of_mem_drop ha)
  have hdrop : ((rows.drop (slicePartitionPoint p rows)).drop
      (slicePartitionPoint q rows-slicePartitionPoint p rows)).filter q = [] := by
    apply filter_eq_nil_iff.mpr
    intro a ha
    obtain ⟨more,hmore⟩ := Nat.exists_eq_add_of_le (show slicePartitionPoint q rows ≤
      slicePartitionPoint p rows+(slicePartitionPoint q rows-slicePartitionPoint p rows) by
        omega)
    rw [drop_drop,hmore,← drop_drop] at ha
    have hbehind:=mem_of_mem_drop ha
    rw [drop_slicePartitionPoint hq a hbehind]
    exact Bool.false_ne_true
  rw [drop_take,← filter_filter,← drop_eq_filter hp]
  conv_rhs => rw [← take_append_drop (slicePartitionPoint q rows-slicePartitionPoint p rows)
    (rows.drop (slicePartitionPoint p rows))]
  rw [filter_append,htake,hdrop,append_nil]

end Partition

section Index
variable {α κ : Type} [LinearOrder α] [LinearOrder κ]

def sortedIndex (key : α → κ) (rows : List α) : List α :=
  rows.mergeSort fun a b => decide (key a < key b ∨ key a = key b ∧ a ≤ b)

variable (key : α → κ) (rows : List α)

theorem sortedIndex_perm : (sortedIndex key rows).Perm rows := mergeSort_perm ..

theorem mem_sortedIndex {a : α} : a ∈ sortedIndex key rows ↔ a ∈ rows :=
  (sortedIndex_perm key rows).mem_iff

theorem sortedIndex_pairwise :
    (sortedIndex key rows).Pairwise fun a b => key a < key b ∨ key a = key b ∧ a ≤ b := by
  have h:=@pairwise_mergeSort _
    (fun a b => decide (key a < key b ∨ key a = key b ∧ a ≤ b))
    (by
      intro a b c hab hbc
      simp only [decide_eq_true_eq] at *
      rcases hab with hab | ⟨hab,hle⟩
      · rcases hbc with hbc | ⟨hbc,-⟩
        · exact Or.inl (hab.trans hbc)
        · exact Or.inl (hbc ▸ hab)
      · rcases hbc with hbc | ⟨hbc,hle'⟩
        · exact Or.inl (hab ▸ hbc)
        · exact Or.inr ⟨hab.trans hbc,hle.trans hle'⟩)
    (by
      intro a b
      simp only [Bool.or_eq_true,decide_eq_true_eq]
      rcases lt_trichotomy (key a) (key b) with hlt | heq | hgt
      · exact Or.inl (Or.inl hlt)
      · rcases le_total a b with hle | hle
        · exact Or.inl (Or.inr ⟨heq,hle⟩)
        · exact Or.inr (Or.inr ⟨heq.symm,hle⟩)
      · exact Or.inr (Or.inl hgt))
    rows
  exact h.imp of_decide_eq_true

theorem sortedIndex_keys : (sortedIndex key rows).Pairwise fun a b => key a ≤ key b :=
  (sortedIndex_pairwise key rows).imp fun h => h.elim le_of_lt fun h => h.1.le

variable {key rows}

theorem filter_key_sortedIndex (key : α → κ) (hrows : rows.Pairwise (· < ·)) {p : α → Bool}
    (hp : ∀ a b,p a = true → p b = true → key a = key b) :
    (sortedIndex key rows).filter p = rows.filter p := by
  apply @List.Perm.eq_of_pairwise _ (· ≤ ·)
  · intro a b _ _ hab hba
    exact le_antisymm hab hba
  · refine ((sortedIndex_pairwise key rows).filter p).imp_of_mem ?_
    intro a b ha hb hab
    have heq:=hp a b (mem_filter.mp ha).2 (mem_filter.mp hb).2
    rcases hab with hlt | ⟨-,hle⟩
    · exact absurd heq hlt.ne
    · exact hle
  · exact (hrows.imp le_of_lt).filter _
  · exact (sortedIndex_perm key rows).filter _

theorem sort_filter_sortedIndex (hrows : rows.Pairwise (· < ·)) (p : α → Bool) :
    ((sortedIndex key rows).filter p).mergeSort (fun a b => decide (a ≤ b)) = rows.filter p := by
  apply @List.Perm.eq_of_pairwise _ (· ≤ ·)
  · intro a b _ _ hab hba
    exact le_antisymm hab hba
  · exact pairwise_mergeSort' (· ≤ ·) _
  · exact (hrows.imp le_of_lt).filter _
  · exact (mergeSort_perm ..).trans ((sortedIndex_perm key rows).filter _)

end Index

section Search
variable {α κ : Type} [LinearOrder κ] {key : α → κ}

theorem head?_filter_key {index : List α} (hsorted : index.Pairwise fun a b => key a ≤ key b)
    (needle : κ) {below equal : α → Bool} (hbelow : ∀ a,below a = true ↔ key a < needle)
    (hequal : ∀ a,equal a = true ↔ key a = needle) :
    ((index.filter fun a => !below a).head?).filter equal = (index.filter equal).head? := by
  induction index with
  | nil => rfl
  | cons a index ih =>
    have hrest:=(pairwise_cons.mp hsorted).2
    rcases lt_trichotomy (key a) needle with hlt | heq | hgt
    · have hequalA : equal a ≠ true := fun h => hlt.ne ((hequal a).mp h)
      rw [filter_cons_of_neg (by simp [(hbelow a).mpr hlt]),
        filter_cons_of_neg hequalA]
      exact ih hrest
    · have hbelowA : below a ≠ true := fun h => ((hbelow a).mp h).ne heq
      rw [filter_cons_of_pos (by simpa using hbelowA),
        filter_cons_of_pos ((hequal a).mpr heq),head?_cons,head?_cons,
        Option.filter_some,if_pos ((hequal a).mpr heq)]
    · have hbelowA : below a ≠ true := fun h => lt_asymm hgt ((hbelow a).mp h)
      have hequalA : equal a ≠ true := fun h => hgt.ne' ((hequal a).mp h)
      have hnone : (a::index).filter equal = [] := by
        apply filter_eq_nil_iff.mpr
        intro b hb hb'
        have hle : key a ≤ key b := by
          rcases mem_cons.mp hb with rfl | hb
          · exact le_rfl
          · exact (pairwise_cons.mp hsorted).1 b hb
        exact (hgt.trans_le hle).ne' ((hequal b).mp hb')
      rw [hnone,filter_cons_of_pos (by simpa using hbelowA),head?_cons,
        Option.filter_some,if_neg hequalA]
      rfl

end Search

section Merge
variable {α ν κ : Type} [LinearOrder κ]

def mergeRows (below equal : ν → α → Bool) : List α → List ν → List α
  | [],_ => []
  | row::index,needles =>
    match needles.dropWhile fun needle => below needle row with
    | [] => []
    | needle::rest =>
      if equal needle row then row::mergeRows below equal index (needle::rest)
      else mergeRows below equal index (needle::rest)

variable {key : α → κ} {rank : ν → κ} {below equal : ν → α → Bool}

theorem exists_dropWhile_iff {needles : List ν} {row : α} {k : κ}
    (hbelow : ∀ n,below n row = true ↔ rank n < key row) (hk : key row ≤ k) :
    (∃ n ∈ needles.dropWhile (fun needle => below needle row),rank n = k) ↔
      ∃ n ∈ needles,rank n = k := by
  induction needles with
  | nil => rfl
  | cons needle needles ih =>
    by_cases hlt : below needle row = true
    · have hne : rank needle ≠ k := ((hbelow needle).mp hlt |>.trans_le hk).ne
      rw [dropWhile_cons_of_pos (p := fun n => below n row) hlt,ih,exists_mem_cons_iff]
      exact ⟨Or.inr,fun h => h.resolve_left hne⟩
    · rw [dropWhile_cons_of_neg (p := fun n => below n row) hlt]

theorem mem_mergeRows {index : List α} {needles : List ν}
    (hbelow : ∀ n a,below n a = true ↔ rank n < key a)
    (hequal : ∀ n a,equal n a = true ↔ rank n = key a)
    (hindex : index.Pairwise fun a b => key a ≤ key b)
    (hneedles : needles.Pairwise fun a b => rank a ≤ rank b) {a : α} :
    a ∈ mergeRows below equal index needles ↔ a ∈ index ∧ ∃ n ∈ needles,rank n = key a := by
  induction index generalizing needles with
  | nil => simp [mergeRows]
  | cons row index ih =>
    obtain ⟨hrow,hrest⟩ := pairwise_cons.mp hindex
    have hleft:=hneedles.sublist (dropWhile_sublist fun needle => below needle row)
    -- the needles dropped here are below every row that follows
    have hsame : a ∈ row::index →
        ((∃ n ∈ needles.dropWhile (fun needle => below needle row),rank n = key a) ↔
          ∃ n ∈ needles,rank n = key a) := by
      intro ha
      rcases mem_cons.mp ha with rfl | ha
      · exact exists_dropWhile_iff (fun n => hbelow n _) le_rfl
      · exact exists_dropWhile_iff (fun n => hbelow n _) (hrow a ha)
    rw [mergeRows,← and_congr_right hsame]
    cases hdrop : needles.dropWhile fun needle => below needle row with
    | nil => simp
    | cons needle rest =>
      rw [hdrop] at hleft
      have hge : key row ≤ rank needle := by
        have hhead:=head?_dropWhile_not (fun needle => below needle row) needles
        rw [hdrop] at hhead
        exact not_lt.mp fun hlt => by simp [(hbelow needle row).mpr hlt] at hhead
      have hfirst : ∀ n ∈ needle::rest,rank needle ≤ rank n := by
        intro n hn
        rcases mem_cons.mp hn with rfl | hn
        · exact le_rfl
        · exact (pairwise_cons.mp hleft).1 n hn
      dsimp only
      by_cases heq : equal needle row = true
      · rw [if_pos heq,mem_cons,ih hrest hleft,mem_cons,or_and_right]
        refine or_congr_left ⟨fun h => ⟨h,needle,mem_cons_self ..,?_⟩,fun h => h.1⟩
        rw [h]
        exact (hequal needle row).mp heq
      · rw [if_neg heq,ih hrest hleft,mem_cons,or_and_right]
        refine (or_iff_right ?_).symm
        intro ⟨hself,n,hn,hkey⟩
        rw [hself] at hkey
        have hle:=hfirst n hn
        rw [hkey] at hle
        exact heq ((hequal needle row).mpr (le_antisymm hle hge))

end Merge

end Zeppelin.Collections
