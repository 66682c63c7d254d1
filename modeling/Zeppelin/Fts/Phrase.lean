import Mathlib.Data.List.Chain
import Zeppelin.Collections.SortedIndex
import Zeppelin.Fts.SealedSegment

/-! fts/phrase.rs: Positions and costs are numbers that stop at `u32::MAX`. -/

namespace Zeppelin.Fts
open Collections List

def Least (costs : Set ℕ) : Option ℕ → Prop
  | none => costs = ∅
  | some c => IsLeast costs c

def improve (best : Option ℕ) (cost : ℕ) : Option ℕ := some (best.elim cost fun b => min b cost)

def satAdd (a b : ℕ) : ℕ := min (a+b) u32Max

def absDiff (a b : ℕ) : ℕ := (a-b)+(b-a)

def displacement (anchor offset q : ℕ) : ℕ := absDiff (q-anchor) (min offset u32Max)

def nextCosts (anchor offset : ℕ) (previous : List (ℕ × ℕ)) (stream : List ℕ) : List (ℕ × ℕ) :=
  stream.filterMap fun candidate =>
    (previous.foldl (fun best entry =>
      if entry.1 ≤ candidate then improve best entry.2 else best) none).map fun best =>
        (candidate,satAdd best (displacement anchor offset candidate))

def align (anchor : ℕ) : ℕ → List (List ℕ) → List (ℕ × ℕ) → List (ℕ × ℕ)
  | _,[],previous => previous
  | offset,stream::streams,previous =>
    if (nextCosts anchor offset previous stream).isEmpty then []
    else align anchor (offset+1) streams (nextCosts anchor offset previous stream)

def minimumDisplacement : List (List ℕ) → Option ℕ
  | [] => none
  | [first] => if first.isEmpty then none else some 0
  | first::rest =>
    if (first::rest).any List.isEmpty then none
    else first.foldl (fun best anchor =>
      (align anchor 1 rest [(anchor,0)]).foldl (fun best entry => improve best entry.2) best) none

structure InOrderAfter (p : ℕ) (qs : List ℕ) (streams : List (List ℕ)) : Prop where
  chosen : List.Forall₂ (fun q stream => q ∈ stream) qs streams
  ascending : List.IsChain (· ≤ ·) (p::qs)

structure Aligned (qs : List ℕ) (streams : List (List ℕ)) : Prop where
  chosen : List.Forall₂ (fun q stream => q ∈ stream) qs streams
  ascending : List.IsChain (· ≤ ·) qs

def displacementFrom (anchor : ℕ) : ℕ → List ℕ → ℕ
  | _,[] => 0
  | offset,q::qs => displacement anchor offset q+displacementFrom anchor (offset+1) qs

/-- `SUM |(qi - q0) - i|` -/
def totalDisplacement (qs : List ℕ) : ℕ := displacementFrom (qs.headD 0) 0 qs

section Least
variable {α : Type} {costs others : Set ℕ} {best : Option ℕ}

theorem Least.not_mem (h : Least costs none) (c : ℕ) : c ∉ costs := by
  have hempty : costs = ∅ := h
  rw [hempty]
  exact Set.notMem_empty c

theorem Least.of_dominated (h : Least costs best) (hcosts : ∀ c ∈ costs,∃ d ∈ others,d ≤ c)
    (hothers : ∀ c ∈ others,∃ d ∈ costs,d ≤ c) : Least others best := by
  cases best with
  | none =>
    refine Set.eq_empty_of_forall_notMem fun c hc => ?_
    obtain ⟨d,hd,-⟩ := hothers c hc
    exact h.not_mem d hd
  | some least =>
    obtain ⟨hmem,hleast⟩ : IsLeast costs least := h
    have hbelow : ∀ c ∈ others,least ≤ c := by
      intro c hc
      obtain ⟨d,hd,hle⟩ := hothers c hc
      exact (hleast hd).trans hle
    obtain ⟨d,hd,hle⟩ := hcosts least hmem
    obtain rfl := Nat.le_antisymm hle (hbelow d hd)
    exact ⟨hd,hbelow⟩

theorem Least.dominates (h : Least costs best) (hothers : Least others best) :
    ∀ c ∈ costs,∃ d ∈ others,d ≤ c := by
  intro c hc
  cases best with
  | none => exact absurd hc (h.not_mem c)
  | some least => exact ⟨least,hothers.1,h.2 hc⟩

theorem Least.improve (h : Least costs best) (c : ℕ) :
    Least (insert c costs) (improve best c) := by
  cases best with
  | none =>
    have hempty : costs = ∅ := h
    subst hempty
    exact ⟨Set.mem_insert _ _,by simp [lowerBounds]⟩
  | some least =>
    obtain ⟨hmem,hleast⟩ : IsLeast costs least := h
    refine ⟨?_,?_⟩
    · rcases Nat.le_total least c with hle | hle
      · exact .inr (by rwa [Option.elim_some,Nat.min_eq_left hle])
      · exact .inl (by rw [Option.elim_some,Nat.min_eq_right hle])
    · intro d hd
      rcases hd with rfl | hd
      · exact Nat.min_le_right _ _
      · exact (Nat.min_le_left _ _).trans (hleast hd)

theorem least_foldl (select : α → Prop) [DecidablePred select] (cost : α → ℕ) (entries : List α) :
    Least {c | ∃ entry ∈ entries,select entry ∧ c = cost entry}
      (entries.foldl (fun best entry => if select entry then improve best (cost entry) else best)
        none) := by
  induction entries using List.reverseRecOn with
  | nil => exact Set.eq_empty_of_forall_notMem fun c ⟨_,h,_⟩ => not_mem_nil h
  | append_singleton entries entry ih =>
    rw [foldl_append,foldl_cons,foldl_nil]
    have hset : {c | ∃ e ∈ entries++[entry],select e ∧ c = cost e} =
        {c | ∃ e ∈ entries,select e ∧ c = cost e} ∪ {c | select entry ∧ c = cost entry} := by
      ext c
      simp [or_and_right,exists_or]
    rw [hset]
    split_ifs with hselect
    · have hlast : {c | select entry ∧ c = cost entry} = {cost entry} := by
        ext c
        simp [hselect]
      rw [hlast,Set.union_singleton]
      exact ih.improve _
    · have hlast : {c | select entry ∧ c = cost entry} = ∅ := by
        ext c
        simp [hselect]
      rwa [hlast,Set.union_empty]

end Least

section Align
variable {anchor offset : ℕ} {previous : List (ℕ × ℕ)} {stream : List ℕ} {streams : List (List ℕ)}

theorem mem_nextCosts {entry : ℕ × ℕ} : entry ∈ nextCosts anchor offset previous stream ↔
    entry.1 ∈ stream ∧ ∃ best,IsLeast {c | ∃ e ∈ previous,e.1 ≤ entry.1 ∧ c = e.2} best ∧
      entry.2 = satAdd best (displacement anchor offset entry.1) := by
  unfold nextCosts
  rw [mem_filterMap]
  have hleast:=fun candidate =>
    least_foldl (fun e : ℕ × ℕ => e.1 ≤ candidate) Prod.snd previous
  constructor
  · rintro ⟨candidate,hcandidate,hentry⟩
    obtain ⟨best,hbest,rfl⟩ := Option.map_eq_some_iff.mp hentry
    have h:=hleast candidate
    rw [hbest] at h
    exact ⟨hcandidate,best,h,rfl⟩
  · rintro ⟨hcandidate,best,hbest,hcost⟩
    refine ⟨entry.1,hcandidate,?_⟩
    have h:=hleast entry.1
    cases hfold : previous.foldl (fun best e => if e.1 ≤ entry.1 then improve best e.2 else best)
        none with
    | none =>
      rw [hfold] at h
      exact absurd hbest.1 (h.not_mem best)
    | some found =>
      rw [hfold] at h
      have hsame : found = best := IsLeast.unique h hbest
      rw [Option.map_some,hsame,← hcost]

/-- The least cost that leads on from the costs so far: a dearer way to a position never helps. -/
theorem align_least (hcosts : ∀ e ∈ previous,e.2 ≤ u32Max) :
    Least {c | ∃ e ∈ previous,∃ qs,InOrderAfter e.1 qs streams ∧
        c = satAdd e.2 (displacementFrom anchor offset qs)}
      ((align anchor offset streams previous).foldl (fun best e => improve best e.2) none) := by
  induction streams generalizing offset previous with
  | nil =>
    have hfold:=least_foldl (fun _ : ℕ × ℕ => True) Prod.snd previous
    simp only [if_true,true_and] at hfold
    refine hfold.of_dominated ?_ ?_
    · rintro c ⟨e,he,rfl⟩
      refine ⟨_,⟨e,he,[],⟨.nil,by simp⟩,rfl⟩,?_⟩
      exact Nat.min_le_left _ _
    · rintro c ⟨e,he,qs,⟨hchosen,-⟩,rfl⟩
      obtain rfl := forall₂_nil_right_iff.mp hchosen
      exact ⟨e.2,⟨e,he,rfl⟩,Nat.le_min.mpr ⟨Nat.le_add_right _ _,hcosts e he⟩⟩
  | cons stream streams ih =>
    have halign : align anchor offset (stream::streams) previous =
        align anchor (offset+1) streams (nextCosts anchor offset previous stream) := by
      have hnil : ∀ streams offset,align anchor offset streams [] = [] := by
        intro streams offset
        cases streams with
        | nil => rfl
        | cons stream streams => simp [align,nextCosts]
      rw [align]
      split_ifs with hempty
      · rw [List.isEmpty_iff.mp hempty,hnil]
      · rfl
    rw [halign]
    have hnext : ∀ e ∈ nextCosts anchor offset previous stream,e.2 ≤ u32Max := by
      intro e he
      obtain ⟨-,best,-,hcost⟩ := mem_nextCosts.mp he
      rw [hcost]
      exact Nat.min_le_right _ _
    refine (ih hnext).of_dominated ?_ ?_
    · rintro c ⟨entry,hentry,qs,⟨hchosen,hascending⟩,rfl⟩
      obtain ⟨hstream,best,⟨⟨e,he,hle,rfl⟩,-⟩,hcost⟩ := mem_nextCosts.mp hentry
      refine ⟨_,⟨e,he,entry.1::qs,⟨.cons hstream hchosen,?_⟩,rfl⟩,?_⟩
      · exact isChain_cons_cons.mpr ⟨hle,hascending⟩
      · rw [hcost,displacementFrom]
        unfold satAdd
        omega
    · rintro c ⟨e,he,qs,⟨hchosen,hascending⟩,rfl⟩
      obtain ⟨q,rest,hq,hrest,rfl⟩ := forall₂_cons_right_iff.mp hchosen
      obtain ⟨hle,hascending⟩ := isChain_cons_cons.mp hascending
      have hsome:=least_foldl (fun e : ℕ × ℕ => e.1 ≤ q) Prod.snd previous
      cases hfold : previous.foldl (fun best e => if e.1 ≤ q then improve best e.2 else best)
          none with
      | none =>
        rw [hfold] at hsome
        exact absurd ⟨e,he,hle,rfl⟩ (hsome.not_mem e.2)
      | some best =>
        rw [hfold] at hsome
        refine ⟨_,⟨(q,satAdd best (displacement anchor offset q)),
          mem_nextCosts.mpr ⟨hq,best,hsome,rfl⟩,rest,⟨hrest,hascending⟩,rfl⟩,?_⟩
        have hbest : best ≤ e.2 := hsome.2 ⟨e,he,hle,rfl⟩
        rw [displacementFrom]
        unfold satAdd
        omega

end Align

theorem totalDisplacement_cons (q : ℕ) (qs : List ℕ) :
    totalDisplacement (q::qs) = displacementFrom q 1 qs := by
  simp [totalDisplacement,displacementFrom,displacement,absDiff]

theorem aligned_cons {qs first : List ℕ} {rest : List (List ℕ)} : Aligned qs (first::rest) ↔
    ∃ q others,qs = q::others ∧ q ∈ first ∧ InOrderAfter q others rest := by
  constructor
  · rintro ⟨hchosen,hascending⟩
    obtain ⟨q,others,hq,hothers,rfl⟩ := forall₂_cons_right_iff.mp hchosen
    exact ⟨q,others,rfl,hq,hothers,hascending⟩
  · rintro ⟨q,others,rfl,hq,hothers,hascending⟩
    exact ⟨.cons hq hothers,hascending⟩

/-- The minimum over all choices, up to the largest cost there is. -/
theorem minimumDisplacement_least (first : List ℕ) (rest : List (List ℕ)) :
    Least {c | ∃ qs,Aligned qs (first::rest) ∧ c = min (totalDisplacement qs) u32Max}
      (minimumDisplacement (first::rest)) := by
  have hall : ∀ entries : List (ℕ × ℕ),Least {c | ∃ e ∈ entries,c = e.2}
      (entries.foldl (fun best e => improve best e.2) none) := by
    intro entries
    have hfold:=least_foldl (fun _ : ℕ × ℕ => True) Prod.snd entries
    simpa only [if_true,true_and] using hfold
  cases rest with
  | nil =>
    cases first with
    | nil =>
      refine Set.eq_empty_of_forall_notMem ?_
      rintro c ⟨qs,haligned,-⟩
      obtain ⟨q,-,-,hq,-⟩ := aligned_cons.mp haligned
      cases hq
    | cons q first =>
      have hone : Aligned [q] [q::first] := aligned_cons.mpr
        ⟨q,[],rfl,mem_cons_self,.nil,isChain_singleton q⟩
      exact ⟨⟨[q],hone,by simp [totalDisplacement_cons,displacementFrom]⟩,fun _ _ => Nat.zero_le _⟩
  | cons stream streams =>
    dsimp only [minimumDisplacement]
    split_ifs with hempty
    · refine Set.eq_empty_of_forall_notMem ?_
      rintro c ⟨qs,haligned,-⟩
      obtain ⟨missing,hmissing,hnil⟩ := any_eq_true.mp hempty
      obtain ⟨i,hi,rfl⟩ := getElem_of_mem hmissing
      have hq:=haligned.chosen.get (haligned.chosen.length_eq ▸ hi) hi
      exact ne_nil_of_mem hq (List.isEmpty_iff.mp hnil)
    · rw [← foldl_flatMap]
      refine (hall _).of_dominated ?_ ?_
      · rintro c ⟨e,he,rfl⟩
        obtain ⟨anchor,hanchor,he⟩ := mem_flatMap.mp he
        obtain ⟨d,⟨start,hstart,qs,hfollows,rfl⟩,hle⟩ :=
          (hall _).dominates (align_least (by simp)) e.2 ⟨e,he,rfl⟩
        obtain rfl := mem_singleton.mp hstart
        refine ⟨_,⟨anchor::qs,aligned_cons.mpr ⟨_,_,rfl,hanchor,hfollows⟩,rfl⟩,?_⟩
        rw [totalDisplacement_cons]
        rwa [satAdd,Nat.zero_add] at hle
      · rintro c ⟨qs,haligned,rfl⟩
        obtain ⟨q,others,rfl,hq,hfollows⟩ := aligned_cons.mp haligned
        obtain ⟨d,⟨e,he,rfl⟩,hle⟩ := (align_least (by simp)).dominates (hall _)
          (satAdd 0 (displacementFrom q 1 others))
          ⟨(q,0),mem_singleton_self _,others,hfollows,rfl⟩
        refine ⟨e.2,⟨e,mem_flatMap.mpr ⟨q,hq,he⟩,rfl⟩,?_⟩
        rw [totalDisplacement_cons]
        rwa [satAdd,Nat.zero_add] at hle

structure PostingsReader where
  list : PostingList
  ascending : list.Pairwise fun p q => p.docid < q.docid

namespace PostingsReader

def scanBlock (row : ℕ) : List Posting → Option (List U32)
  | [] => none
  | p::postings =>
    if row < p.docid then none
    else if p.docid = row then some p.positions else scanBlock row postings

def endsBefore (row : ℕ) (block : List Posting) : Bool :=
  block.getLast?.any fun last => last.docid < row

def positions (reader : PostingsReader) (row : ℕ) : Option (List U32) :=
  (chunksOf postingsPerBlock reader.list)[slicePartitionPoint (endsBefore row)
    (chunksOf postingsPerBlock reader.list)]?.bind (scanBlock row)

end PostingsReader

structure SegmentPhrase where
  readers : List (Option PostingsReader)
  order : List ℕ
  rows : ℕ
  order_perm : order.Perm (List.range readers.length)

structure PhraseSegment where
  lists : List (TermKey × PostingsReader)
  rows : ℕ

structure PreparedPhrase where
  segments : List SegmentPhrase
  slop : U32

namespace SegmentPhrase

def new (segment : PhraseSegment) (terms : List String) (field : FieldId) : SegmentPhrase :=
  let readers:=terms.map fun term => segment.lists.lookup ⟨term,field⟩
  ⟨readers,(List.range readers.length).mergeSort fun a b =>
    (readers[a]?.join.elim 0 fun reader => reader.list.length) ≤
      readers[b]?.join.elim 0 fun reader => reader.list.length,
    segment.rows,mergeSort_perm _ _⟩

def view (phrase : SegmentPhrase) (row slot : ℕ) : Option (List U32) :=
  phrase.readers[slot]?.join.bind fun reader => reader.positions row

end SegmentPhrase

namespace PreparedPhrase

def new (segments : List PhraseSegment) (terms : List String) (slop : U32) (field : FieldId) :
    PreparedPhrase :=
  ⟨segments.map fun segment => .new segment terms field,slop⟩

/-- `none` for a candidate outside its segment. No positions are compared before the row was found
in every reader. -/
def «matches» (p : PreparedPhrase) (segment row : ℕ) : Option Bool := do
  let phrase ← p.segments[segment]?
  if phrase.rows ≤ row then none
  else if phrase.order.all fun slot => (phrase.view row slot).isSome then do
    let streams ← phrase.readers.mapM fun reader => reader.bind fun r => r.positions row
    return (minimumDisplacement (streams.map (List.map BitVec.toNat))).any (· ≤ p.slop.toNat)
  else some false

end PreparedPhrase

theorem mapM_isSome {α β : Type} {f : α → Option β} {xs : List α} :
    (xs.mapM f).isSome = xs.all fun x => (f x).isSome := by
  induction xs with
  | nil => rfl
  | cons x xs ih =>
    rw [mapM_cons,all_cons,← ih]
    cases f x with
    | none => rfl
    | some y =>
      cases xs.mapM f with
      | none => rfl
      | some ys => rfl

theorem PostingsReader.scanBlock_eq {block : List Posting} {row : ℕ}
    (h : block.Pairwise fun p q => p.docid < q.docid) :
    scanBlock row block = (block.find? fun p => p.docid = row).map Posting.positions := by
  induction block with
  | nil => rfl
  | cons p block ih =>
    obtain ⟨hfirst,hrest⟩ := pairwise_cons.mp h
    rw [scanBlock,find?_cons]
    by_cases hlt : row < p.docid
    · have hnone : block.find? (fun q => q.docid = row) = none := by
        refine find?_eq_none.mpr fun q hq => ?_
        have hbehind:=hfirst q hq
        simp only [decide_eq_true_eq]
        omega
      rw [if_pos hlt,decide_eq_false (by omega),hnone]
      rfl
    · by_cases hsame : p.docid = row
      · simp [hsame]
      · simp [hlt,hsame,ih hrest]

/-- The row can only be in the first block that does not end before it. -/
theorem PostingsReader.positions_eq (reader : PostingsReader) (row : ℕ) :
    reader.positions row =
      (reader.list.find? fun p => p.docid = row).map Posting.positions := by
  have hascending:=reader.ascending
  have hends : ∀ block ∈ chunksOf postingsPerBlock reader.list,
      ∃ front last,block = front++[last] := fun block hblock =>
    (eq_nil_or_concat' block).resolve_left (chunksOf_ne_nil hblock)
  have hwhole:=chunksOf_flatten (show postingsPerBlock ≠ 0 by decide) reader.list
  rw [← hwhole] at hascending
  conv_rhs => rw [← hwhole]
  unfold positions
  generalize chunksOf postingsPerBlock reader.list = blocks at hascending hends
  obtain ⟨hinside,hacross⟩ := pairwise_flatten.mp hascending
  have hmono : blocks.Pairwise fun a b => endsBefore row b = true → endsBefore row a = true := by
    refine hacross.imp_of_mem fun {a b} ha hb hab hlast => ?_
    obtain ⟨front,first,rfl⟩ := hends a ha
    obtain ⟨others,last,rfl⟩ := hends b hb
    simp only [endsBefore,getLast?_concat,Option.any_some,decide_eq_true_eq] at hlast ⊢
    exact (hab first (by simp) last (by simp)).trans hlast
  have hfront : (blocks.take (slicePartitionPoint (endsBefore row) blocks)).flatten.find?
      (fun p => p.docid = row) = none := by
    refine find?_eq_none.mpr fun q hq => ?_
    obtain ⟨block,hblock,hq⟩ := mem_flatten.mp hq
    have hbefore:=take_slicePartitionPoint hmono block hblock
    obtain ⟨front,last,rfl⟩ := hends block (mem_of_mem_take hblock)
    have hbelow:=(pairwise_append.mp (hinside _ (mem_of_mem_take hblock))).2.2
    simp only [endsBefore,getLast?_concat,Option.any_some,decide_eq_true_eq] at hbefore ⊢
    rcases mem_append.mp hq with hq | hq
    · exact ((hbelow q hq last (by simp)).trans hbefore).ne
    · rw [mem_singleton.mp hq]
      exact hbefore.ne
  have hbehind:=drop_slicePartitionPoint hmono
  conv_rhs => rw [← take_append_drop (slicePartitionPoint (endsBefore row) blocks) blocks]
  rw [flatten_append,find?_append,hfront,Option.none_or,← head?_drop]
  have hdrop:=hacross.drop (i := slicePartitionPoint (endsBefore row) blocks)
  cases htail : blocks.drop (slicePartitionPoint (endsBefore row) blocks) with
  | nil => rfl
  | cons block later =>
    rw [htail] at hbehind hdrop
    have hmem : block ∈ blocks := mem_of_mem_drop (htail ▸ mem_cons_self)
    have hlast:=hbehind block mem_cons_self
    have hlater : later.flatten.find? (fun p => p.docid = row) = none := by
      refine find?_eq_none.mpr fun q hq => ?_
      obtain ⟨other,hother,hq⟩ := mem_flatten.mp hq
      obtain ⟨front,last,rfl⟩ := hends block hmem
      have habove:=(pairwise_cons.mp hdrop).1 other hother last (by simp) q hq
      simp only [endsBefore,getLast?_concat,Option.any_some,decide_eq_false_iff_not,
        decide_eq_true_eq] at hlast ⊢
      omega
    rw [head?_cons,Option.bind_some,scanBlock_eq (hinside block hmem),flatten_cons,
      find?_append,hlater,Option.or_none]

theorem SegmentPhrase.order_all (phrase : SegmentPhrase) (row : ℕ) :
    (phrase.order.all fun slot => (phrase.view row slot).isSome) =
      (phrase.readers.mapM fun reader => Option.bind reader fun r => r.positions row).isSome := by
  rw [mapM_isSome,phrase.order_perm.all_eq,Bool.eq_iff_iff,all_eq_true,all_eq_true]
  constructor
  · intro h reader hreader
    obtain ⟨slot,hslot,rfl⟩ := getElem_of_mem hreader
    have hview:=h slot (mem_range.mpr hslot)
    rwa [view,getElem?_eq_getElem hslot] at hview
  · intro h slot hslot
    have hlt:=mem_range.mp hslot
    rw [view,getElem?_eq_getElem hlt]
    exact h _ (getElem_mem hlt)

/-- The minimum of the displacements is exact up to `u32::MAX`, and a row is accepted if it has all
terms and their minimum is within the slop. -/
theorem phrase_slop (first : List ℕ) (rest : List (List ℕ)) (segments : List PhraseSegment)
    (terms : List String) (slop : U32) (field : FieldId) :
    Least {c | ∃ qs,Aligned qs (first::rest) ∧ c = min (totalDisplacement qs) u32Max}
      (minimumDisplacement (first::rest)) ∧
    ∀ i row,(PreparedPhrase.new segments terms slop field).matches i row =
      segments[i]?.bind fun segment => if segment.rows ≤ row then none else
        some ((terms.mapM fun term => (segment.lists.lookup ⟨term,field⟩).bind fun reader =>
          (reader.list.find? fun p => p.docid = row).map Posting.positions).any fun streams =>
            (minimumDisplacement (streams.map (List.map BitVec.toNat))).any (· ≤ slop.toNat)) := by
  refine ⟨minimumDisplacement_least first rest,fun i row => ?_⟩
  rw [PreparedPhrase.matches,PreparedPhrase.new,getElem?_map]
  cases segments[i]? with
  | none => rfl
  | some segment =>
    rw [Option.map_some,Option.bind_eq_bind,Option.bind_some,Option.bind_some]
    have hrows : (SegmentPhrase.new segment terms field).rows = segment.rows := rfl
    have hreaders : (SegmentPhrase.new segment terms field).readers =
        terms.map fun term => segment.lists.lookup ⟨term,field⟩ := rfl
    rw [SegmentPhrase.order_all,hrows,hreaders,mapM_map]
    simp only [Function.comp_def,PostingsReader.positions_eq]
    have hfound : ∀ (accepts : List (List U32) → Bool) (found : Option (List (List U32))),
        (if found.isSome = true then found.bind fun streams => some (accepts streams)
          else some false) = some (found.any accepts) := by
      intro accepts found
      cases found with
      | none => rfl
      | some streams => rfl
    by_cases hrow : segment.rows ≤ row
    · rw [if_pos hrow,if_pos hrow]
    · rw [if_neg hrow,if_neg hrow]
      exact hfound _ _

theorem displacement_saturates : ¬ Least {c | ∃ qs,
    Aligned qs [[0],[u32Max],[u32Max]] ∧ c = totalDisplacement qs}
      (minimumDisplacement [[0],[u32Max],[u32Max]]) := by
  intro h
  have hsaturated : minimumDisplacement [[0],[u32Max],[u32Max]] = some u32Max := by decide
  rw [hsaturated] at h
  obtain ⟨⟨qs,haligned,htotal⟩,-⟩ := h
  obtain ⟨q,others,rfl,hq,hothers⟩ := aligned_cons.mp haligned
  obtain ⟨second,rest,hsecond,hrest,rfl⟩ := forall₂_cons_right_iff.mp hothers.chosen
  obtain ⟨third,last,hthird,hlast,rfl⟩ := forall₂_cons_right_iff.mp hrest
  obtain rfl := forall₂_nil_right_iff.mp hlast
  obtain rfl := mem_singleton.mp hq
  obtain rfl := mem_singleton.mp hsecond
  obtain rfl := mem_singleton.mp hthird
  revert htotal
  decide

end Zeppelin.Fts
