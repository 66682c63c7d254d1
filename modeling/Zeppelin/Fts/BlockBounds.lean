import Zeppelin.Fts.MergedList

/-! fts/postings.rs, fts/prune/bounds.rs -/

namespace Zeppelin.Fts
open List

section Build
variable {R : Type} [Zero R] [LinearOrder R]

structure BlockBound (R : Type) where
  start : ℕ
  stop : ℕ
  lastRow : ℕ
  impact : BlockImpact
  maxScore : R

/-- A row without a length counts as the shortest one. -/
def impactOf (entries : List (ℕ × ℕ)) (lengths : List ℕ) : BlockImpact where
  maxTf := entries.foldl (fun most entry => max most entry.2) 0
  minLen := min (entries.foldl (fun least entry => min least (lengthOf lengths entry.1)) u32Max)
    u16Max

def boundsFrom (lengths : List ℕ) (scorer : TermScorer R) :
    ℕ → List (List (ℕ × ℕ)) → List (BlockBound R)
  | _,[] => []
  | start,chunk::chunks =>
    let impact:=impactOf chunk lengths
    ⟨start,start+chunk.length,(chunk.getLast?.map Prod.fst).getD 0,impact,
      scorer.score impact.maxTf impact.minLen⟩::
        boundsFrom lengths scorer (start+chunk.length) chunks

def buildBlockBounds (entries : List (ℕ × ℕ)) (lengths : List ℕ) (blockSize : ℕ)
    (scorer : TermScorer R) : List (BlockBound R) :=
  boundsFrom lengths scorer 0 (chunksOf blockSize entries)

def termUpperBound (bounds : List (BlockBound R)) : R :=
  bounds.foldl (fun most block => max most block.maxScore) 0

variable {lengths : List ℕ} {scorer : TermScorer R} {p : ℕ × ℕ} {chunks : List (List (ℕ × ℕ))}
  {block : BlockBound R}

theorem impactOf_dominates {entries : List (ℕ × ℕ)} (hp : p ∈ entries) :
    scorer.score p.2 (lengthOf lengths p.1) ≤
      scorer.score (impactOf entries lengths).maxTf (impactOf entries lengths).minLen := by
  apply scorer.score_le
  · exact (le_foldl_max Prod.snd entries 0).2 p hp
  · exact (min_le_left _ _).trans
      ((foldl_min_le (fun entry => lengthOf lengths entry.1) entries u32Max).2 p hp)

theorem boundsFrom_dominates {start : ℕ} (h : block ∈ boundsFrom lengths scorer start chunks)
    (before : List (ℕ × ℕ)) (hbefore : before.length = start) :
    ∀ p ∈ ((before++chunks.flatten).drop block.start).take (block.stop-block.start),
      scorer.score p.2 (lengthOf lengths p.1) ≤ block.maxScore := by
  induction chunks generalizing start before with
  | nil => cases h
  | cons chunk chunks ih =>
    rw [flatten_cons]
    rcases mem_cons.mp h with rfl | h
    · intro p hp
      rw [← hbefore,drop_left,Nat.add_sub_cancel_left,take_left] at hp
      exact impactOf_dominates hp
    · rw [← append_assoc]
      exact ih h (before++chunk) (by rw [length_append,hbefore])

theorem exists_block (lengths : List ℕ) (scorer : TermScorer R) (start : ℕ)
    (hp : p ∈ chunks.flatten) : ∃ block ∈ boundsFrom lengths scorer start chunks,
      scorer.score p.2 (lengthOf lengths p.1) ≤ block.maxScore := by
  induction chunks generalizing start with
  | nil => cases hp
  | cons chunk chunks ih =>
    rcases mem_append.mp hp with hp | hp
    · exact ⟨_,mem_cons_self,impactOf_dominates hp⟩
    · obtain ⟨block,hblock,hle⟩ := ih (start+chunk.length) hp
      exact ⟨block,mem_cons_of_mem _ hblock,hle⟩

theorem le_termUpperBound {bounds : List (BlockBound R)}
    (h : block ∈ bounds) : block.maxScore ≤ termUpperBound bounds := by
  suffices hfold : ∀ start : R,
      start ≤ bounds.foldl (fun most block => max most block.maxScore) start ∧
      ∀ block ∈ bounds,
        block.maxScore ≤ bounds.foldl (fun most block => max most block.maxScore) start from
    (hfold 0).2 block h
  intro start
  clear h
  induction bounds generalizing start with
  | nil => exact ⟨le_rfl,fun block hblock => nomatch hblock⟩
  | cons first bounds ih =>
    obtain ⟨hstart,hall⟩ := ih (max start first.maxScore)
    refine ⟨(le_max_left _ _).trans hstart,?_⟩
    intro block hblock
    rcases mem_cons.mp hblock with rfl | hblock
    · exact (le_max_right _ _).trans hstart
    · exact hall block hblock

end Build

section Stream
variable {R : Type} [Zero R] [Preorder R] {scorer : TermScorer R}
  {lengths : List (FieldId × List ℕ)} {rowCount : ℕ} {lengthAt : ℕ → ℕ} {s : TermStream}
  {rest : List (ℕ × ℕ)}

def ListCursor.blockEnd (c : ListCursor) : Option ℕ := c.block.bind c.lastDocid

theorem ListCursor.Wf.currentImpact_dominates {c : ListCursor} (h : c.Wf lengths rowCount)
    {p : ℕ × ℕ} (hp : p ∈ c.rest) (hend : ∀ e,c.blockEnd = some e → p.1 ≤ e) :
    c.exhausted = false ∧ c.currentImpact.Dominates lengths c.span.field p := by
  rcases h.position with hnone | ⟨before,b,later,hat⟩
  · rw [ListCursor.rest_of_none hnone] at hp
    cases hp
  · have hget : c.span.blocks[before.length]? = some b := by
      rw [hat.blocks,getElem?_append_right le_rfl,Nat.sub_self,getElem?_cons_zero]
    have hb : b ∈ c.span.blocks := mem_of_getElem? hget
    have hvalid:=h.span.block b hb
    have hlast : p.1 ≤ b.lastDocid := by
      apply hend
      rw [ListCursor.blockEnd,hat.block,Option.bind_some,ListCursor.lastDocid,hget]
      rfl
    have hmem : p ∈ b.postings := by
      rw [hat.rest] at hp
      rcases mem_append.mp hp with hp | hp
      · exact mem_of_mem_drop hp
      · -- a later block starts behind the last row of this one
        exfalso
        have hasc:=h.span.ascending
        rw [hat.blocks,flatMap_append,pairwise_append,flatMap_cons,
          pairwise_append] at hasc
        obtain ⟨q,hq,hdocid⟩ := Option.map_eq_some_iff.mp hvalid.last
        have hlt:=hasc.2.1.2.2 q (mem_of_getLast? hq) p hp
        omega
    refine ⟨by simp [ListCursor.exhausted,hat.block],?_⟩
    have himpact : c.currentImpact = b.impact := by
      simp [ListCursor.currentImpact,ListCursor.impactAt,hat.block,hget]
    rw [himpact]
    exact ⟨hvalid.tf_le p hmem,hvalid.len_le p hmem⟩

theorem StreamWf.blockBound_dominates (h : StreamWf lengths rowCount lengthAt s) {r : ℕ}
    (hend : ∀ run ∈ s.runs,∀ e,run.blockEnd = some e → r ≤ e) :
    scorer.score (s.tf r) (lengthAt r) ≤ s.blockBound scorer := by
  refine h.boundFrom_dominates fun run hrun p hp hrow => ?_
  obtain ⟨hleft,hdominates⟩ := (h.runs run hrun).toWf.currentImpact_dominates hp
    fun e he => hrow ▸ hend run hrun e he
  exact ⟨run.currentImpact,by rw [hleft]; rfl,hdominates⟩

end Stream

def lengthScorer : TermScorer ℕ where
  score tf length := tf*(10-length)
  absent _ := Nat.zero_mul _
  mono length h := Nat.mul_le_mul_right _ h
  anti tf {length length'} h := Nat.mul_le_mul_left tf (show 10-length' ≤ 10-length by omega)

def twoRows : SegmentIndex where
  terms := [(⟨"a",0⟩,0)]
  lists := [[⟨0,2,[]⟩,⟨1,1,[]⟩]]
  lengths := [(0,[2,5])]
  rowCount := 2
  freeSlots := []

theorem twoRows_sealable : Sealable twoRows where
  rows := by decide
  ascending := by decide
  posting := by
    intro entry hentry list hlist p hp
    obtain rfl := mem_singleton.mp hentry
    obtain rfl : list = [⟨0,2,[]⟩,⟨1,1,[]⟩] := (Option.some.inj hlist).symm
    refine ⟨[2,5],rfl,?_⟩
    rcases mem_cons.mp hp with rfl | hp
    · exact ⟨by decide,by decide,by decide⟩
    · obtain rfl := mem_singleton.mp hp
      exact ⟨by decide,by decide,by decide⟩

end Zeppelin.Fts
