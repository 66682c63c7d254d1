import Mathlib.Tactic.Positivity
import Zeppelin.Fts.ListCursor

/-! fts/bm25.rs -/

namespace Zeppelin.Fts
open List

structure TermScorer (R : Type) [Zero R] [LE R] where
  score : ℕ → ℕ → R
  absent : ∀ length,score 0 length = 0
  mono : ∀ {tf tf' : ℕ} (length : ℕ),tf ≤ tf' → score tf length ≤ score tf' length
  anti : ∀ (tf : ℕ) {length length' : ℕ},length ≤ length' → score tf length' ≤ score tf length

theorem TermScorer.nonneg {R : Type} [Zero R] [LE R] (s : TermScorer R) (tf length : ℕ) :
    0 ≤ s.score tf length := by
  have h:=s.mono length (Nat.zero_le tf)
  rwa [s.absent] at h

theorem TermScorer.score_le {R : Type} [Zero R] [Preorder R] (s : TermScorer R)
    {tf tf' length length' : ℕ} (htf : tf ≤ tf') (hlength : length' ≤ length) :
    s.score tf length ≤ s.score tf' length' :=
  (s.mono length htf).trans (s.anti tf' hlength)

structure CorpusStats where
  docCount : ℕ
  totalTokens : ℕ
  docs : docCount ≠ 0
  tokens : totalTokens ≠ 0

inductive Bm25Error where
  | emptyCorpus
  | noTokens
  deriving DecidableEq

def CorpusStats.new (docCount totalTokens : ℕ) : Except Bm25Error CorpusStats :=
  if hdocs : docCount = 0 then .error .emptyCorpus
  else if htokens : totalTokens = 0 then .error .noTokens
  else .ok ⟨docCount,totalTokens,hdocs,htokens⟩

section Formula
variable {R : Type} [Field R] [LinearOrder R] [IsStrictOrderedRing R]

structure Bm25Params (R : Type) [Field R] [LinearOrder R] where
  k1 : R
  b : R
  k1_nonneg : 0 ≤ k1
  b_nonneg : 0 ≤ b
  b_le_one : b ≤ 1

def CorpusStats.averageDocumentLength (stats : CorpusStats) : R :=
  stats.totalTokens / stats.docCount

def lengthNormalization (stats : CorpusStats) (params : Bm25Params R) (length : ℕ) : R :=
  1-params.b+params.b*length / stats.averageDocumentLength

def bm25Score (idf : R) (stats : CorpusStats) (params : Bm25Params R) (tf length : ℕ) : R :=
  if tf = 0 then 0
  else if tf+params.k1*lengthNormalization stats params length ≤ 0 then 0
  else idf*(tf*(params.k1+1)) / (tf+params.k1*lengthNormalization stats params length)

variable {stats : CorpusStats} {params : Bm25Params R}

theorem averageDocumentLength_pos : 0 < (stats.averageDocumentLength : R) := by
  have hdocs : 0 < (stats.docCount : R) := Nat.cast_pos.mpr (Nat.pos_of_ne_zero stats.docs)
  have htokens : 0 < (stats.totalTokens : R) := Nat.cast_pos.mpr (Nat.pos_of_ne_zero stats.tokens)
  exact div_pos htokens hdocs

theorem lengthNormalization_nonneg (length : ℕ) :
    0 ≤ lengthNormalization stats params length := by
  have hratio : 0 ≤ params.b*(length : R) / stats.averageDocumentLength :=
    div_nonneg (mul_nonneg params.b_nonneg (Nat.cast_nonneg length))
      averageDocumentLength_pos.le
  exact add_nonneg (sub_nonneg.mpr params.b_le_one) hratio

theorem lengthNormalization_mono {length length' : ℕ} (h : length ≤ length') :
    lengthNormalization stats params length ≤ lengthNormalization stats params length' := by
  have hlength : (length : R) ≤ length' := Nat.cast_le.mpr h
  have hproduct:=mul_le_mul_of_nonneg_left hlength params.b_nonneg
  have hpos : 0 < (stats.averageDocumentLength : R) := averageDocumentLength_pos
  have hratio:=div_le_div_of_nonneg_right hproduct hpos.le
  exact add_le_add_right hratio _

theorem denominator_pos {tf : ℕ} (htf : tf ≠ 0) (length : ℕ) :
    0 < (tf : R)+params.k1*lengthNormalization stats params length := by
  have hpos : 0 < (tf : R) := Nat.cast_pos.mpr (Nat.pos_of_ne_zero htf)
  exact add_pos_of_pos_of_nonneg hpos
    (mul_nonneg params.k1_nonneg (lengthNormalization_nonneg length))

theorem bm25Score_of_ne_zero {idf : R} {tf : ℕ} (htf : tf ≠ 0) (length : ℕ) :
    bm25Score idf stats params tf length =
      idf*(tf*(params.k1+1)) /
        (tf+params.k1*lengthNormalization stats params length) := by
  unfold bm25Score
  rw [if_neg htf,if_neg (not_le.mpr (denominator_pos htf length))]

theorem bm25Score_nonneg {idf : R} (hidf : 0 ≤ idf) (tf length : ℕ) :
    0 ≤ bm25Score idf stats params tf length := by
  by_cases htf : tf = 0
  · simp [bm25Score,htf]
  · rw [bm25Score_of_ne_zero htf]
    have hk : 0 ≤ params.k1+1 := add_nonneg params.k1_nonneg zero_le_one
    exact div_nonneg (mul_nonneg hidf (mul_nonneg (Nat.cast_nonneg tf) hk))
      (denominator_pos htf length).le

def bm25Scorer (idf : R) (hidf : 0 ≤ idf) (stats : CorpusStats) (params : Bm25Params R) :
    TermScorer R where
  score := bm25Score idf stats params
  absent _ := by simp [bm25Score]
  mono {tf tf'} length h := by
    by_cases htf : tf = 0
    · have hnonneg : 0 ≤ bm25Score idf stats params tf' length := bm25Score_nonneg hidf tf' length
      rw [htf]
      simpa [bm25Score] using hnonneg
    · have htf' : tf' ≠ 0 := by omega
      rw [bm25Score_of_ne_zero htf,bm25Score_of_ne_zero htf',
        div_le_div_iff₀ (denominator_pos htf length) (denominator_pos htf' length)]
      have hcast : (tf : R) ≤ tf' := Nat.cast_le.mpr h
      have hk : 0 ≤ idf*(params.k1+1) :=
        mul_nonneg hidf (add_nonneg params.k1_nonneg zero_le_one)
      have hnorm : 0 ≤ params.k1*lengthNormalization stats params length :=
        mul_nonneg params.k1_nonneg (lengthNormalization_nonneg length)
      have hgain:=mul_le_mul_of_nonneg_left (mul_le_mul_of_nonneg_right hcast hnorm) hk
      calc idf*(tf*(params.k1+1))*
            (tf'+params.k1*lengthNormalization stats params length)
          = idf*(params.k1+1)*(tf*tf')+
              idf*(params.k1+1)*
                (tf*(params.k1*lengthNormalization stats params length)) := by ring
        _ ≤ idf*(params.k1+1)*(tf*tf')+
              idf*(params.k1+1)*
                (tf'*(params.k1*lengthNormalization stats params length)) :=
            add_le_add_right hgain _
        _ = idf*(tf'*(params.k1+1))*
              (tf+params.k1*lengthNormalization stats params length) := by ring
  anti tf {length length'} h := by
    by_cases htf : tf = 0
    · simp [bm25Score,htf]
    · rw [bm25Score_of_ne_zero htf,bm25Score_of_ne_zero htf]
      have hk : 0 ≤ params.k1+1 := add_nonneg params.k1_nonneg zero_le_one
      have hnumerator : 0 ≤ idf*(tf*(params.k1+1)) :=
        mul_nonneg hidf (mul_nonneg (Nat.cast_nonneg tf) hk)
      refine div_le_div_of_nonneg_left hnumerator (denominator_pos htf length) ?_
      exact add_le_add_right
        (mul_le_mul_of_nonneg_left (lengthNormalization_mono h) params.k1_nonneg) _

end Formula

/-! fts/sealed.rs -/

structure TermStream where
  runs : List ListCursor
  head : Option ℕ
  deriving DecidableEq

def minRow (first : Option ℕ) : Option ℕ → Option ℕ
  | none => first
  | some row => some (first.elim row fun held => min held row)

def firstRow (runs : List ListCursor) : Option ℕ :=
  runs.foldl (fun first run => minRow first run.current) none

/-- Advances every run that stands on `row`. -/
def stepRuns (row : ℕ) (runs : List ListCursor) : List ListCursor :=
  runs.map fun run => if run.current = some row then run.advance else run

def tfAt (runs : List ListCursor) (row : ℕ) : ℕ :=
  min (runs.foldl (fun total run => if run.current = some row then
    min (total+run.currentWeightedTf.getD 0) u64Max else total) 0 / 1000) u32Max

def unitSingle (runs : List ListCursor) : Bool :=
  runs.length = 1 && (runs.head?.map ListCursor.weight) = some 1000

def headsAlwaysValid (runs : List ListCursor) : Bool := runs.all fun run => 1000 ≤ run.weight

def left (runs : List ListCursor) : ℕ := (runs.map fun run => run.rest.length).sum

def refreshRuns : ℕ → List ListCursor → TermStream
  | 0,runs => ⟨runs,none⟩
  | fuel+1,runs =>
    match firstRow runs with
    | none => ⟨runs,none⟩
    | some row =>
      if 0 < tfAt runs row then ⟨runs,some row⟩ else refreshRuns fuel (stepRuns row runs)

def refresh (runs : List ListCursor) : TermStream :=
  if headsAlwaysValid runs then
    ⟨runs,if unitSingle runs then runs.head?.bind ListCursor.current else firstRow runs⟩
  else refreshRuns (left runs+1) runs

namespace TermStream

def reset (s : TermStream) : TermStream := refresh (s.runs.map ListCursor.reset)

def currentRow (s : TermStream) : Option ℕ := s.head

def currentTf (s : TermStream) : Option ℕ := s.head.map (tfAt s.runs)

def advance (s : TermStream) : TermStream :=
  match s.head with
  | none => s
  | some row => refresh (stepRuns row s.runs)

def seek (row : ℕ) (s : TermStream) : TermStream := refresh (s.runs.map (ListCursor.seek row))

def exhausted (s : TermStream) : Bool := s.head.isNone

def postingCount (s : TermStream) : ℕ :=
  (s.runs.map fun run => (run.span.blocks.length-1)*postingsPerBlock+
    (run.span.blocks.getLast?.map fun b => b.postings.length).getD 0).sum

section Bounds
variable {R : Type} [Zero R] [LE R]

/-- Weighted maxima are rounded up and weighted minima down. -/
def boundFrom (scorer : TermScorer R) (pick : ListCursor → Option BlockImpact) (s : TermStream) : R :=
  match (s.runs.filterMap fun run => (pick run).map fun impact =>
      min (impact.minLen*run.weight) u64Max / 1000).min? with
  | none => 0
  | some minLen => scorer.score (min (s.runs.foldl (fun total run => (pick run).elim total
      fun impact => min (total+(min (impact.maxTf*run.weight) u64Max+999) / 1000) u64Max) 0)
        u32Max) (min minLen u32Max)

def blockBound (s : TermStream) (scorer : TermScorer R) : R :=
  s.boundFrom scorer fun run => if run.exhausted then none else some run.currentImpact

def upperBound (s : TermStream) (scorer : TermScorer R) : R :=
  s.boundFrom scorer fun run => if run.exhausted then none else some run.span.overall

def boundFor (s : TermStream) (row : ℕ) (scorer : TermScorer R) : R :=
  s.boundFrom scorer fun run => run.impactFor row

def boundHorizonFor (s : TermStream) (row : ℕ) : Option ℕ :=
  s.runs.foldl (fun edge run => minRow edge (run.impactHorizonFor row)) none

end Bounds

end TermStream

def SealedSegment.spansOf (s : SealedSegment) (term : String) : List ListSpan :=
  (s.spans.dropWhile fun span => span.term < term).takeWhile fun span => span.term = term

/-- `TermStream::open`. -/
def SealedSegment.openStream (s : SealedSegment) (term : String) (weights : FieldWeights) :
    Option TermStream :=
  if ((s.spansOf term).filter fun span => weights.weight span.field ≠ 0).isEmpty then none
  else some (TermStream.reset ⟨((s.spansOf term).filter fun span =>
    weights.weight span.field ≠ 0).map fun span => cursorAt span (weights.weight span.field),none⟩)

def tfOf (rest : List (ℕ × ℕ)) (row : ℕ) : ℕ := (rest.lookup row).getD 0

section Lists
variable {rest : List (ℕ × ℕ)} {row : ℕ}

theorem tfOf_cons (p : ℕ × ℕ) (rest : List (ℕ × ℕ)) (row : ℕ) :
    tfOf (p::rest) row = if row = p.1 then p.2 else tfOf rest row := by
  obtain ⟨docid,tf⟩ := p
  unfold tfOf
  rw [lookup_cons]
  by_cases h : row = docid
  · simp [h]
  · rw [beq_false_of_ne h,if_neg h]

theorem tfOf_eq_zero (h : ∀ p ∈ rest,p.1 ≠ row) : tfOf rest row = 0 := by
  induction rest with
  | nil => rfl
  | cons p rest ih =>
    rw [tfOf_cons,if_neg (Ne.symm (h p mem_cons_self))]
    exact ih fun q hq => h q (mem_cons_of_mem _ hq)

theorem mem_of_tfOf (h : tfOf rest row ≠ 0) : (row,tfOf rest row) ∈ rest := by
  induction rest with
  | nil => exact absurd rfl h
  | cons p rest ih =>
    rw [tfOf_cons] at h ⊢
    split at h
    · rename_i heq
      rw [if_pos heq,heq]
      exact mem_cons_self
    · rename_i hne
      rw [if_neg hne]
      exact mem_cons_of_mem _ (ih h)

theorem tfOf_tail {p : ℕ × ℕ} (h : (p::rest).Pairwise fun p q => p.1 < q.1) (row : ℕ) :
    tfOf rest row = if row ≤ p.1 then 0 else tfOf (p::rest) row := by
  have hlater:=(pairwise_cons.mp h).1
  split
  · refine tfOf_eq_zero fun q hq => ?_
    have hlt:=hlater q hq
    omega
  · rw [tfOf_cons,if_neg (by omega)]

theorem tfOf_dropWhile (h : rest.Pairwise fun p q => p.1 < q.1) (bound row : ℕ) :
    tfOf (rest.dropWhile fun p => p.1 < bound) row = if row < bound then 0 else tfOf rest row := by
  induction rest with
  | nil => simp [tfOf]
  | cons p rest ih =>
    have htail:=(pairwise_cons.mp h).2
    rw [dropWhile_cons]
    split
    · rename_i hlt
      rw [decide_eq_true_eq] at hlt
      rw [ih htail,tfOf_cons]
      split
      · rfl
      · rw [if_neg (by omega)]
    · rename_i hge
      rw [decide_eq_true_eq,not_lt] at hge
      split
      · refine tfOf_eq_zero fun q hq => ?_
        rcases mem_cons.mp hq with rfl | hq
        · omega
        · have hlt:=(pairwise_cons.mp h).1 q hq
          omega
      · rfl

end Lists

theorem foldl_minRow (rows : List (Option ℕ)) (start : Option ℕ) :
    (∀ e,rows.foldl minRow start = some e →
      (start = some e ∨ some e ∈ rows) ∧ (∀ r,start = some r → e ≤ r) ∧
        ∀ r,some r ∈ rows → e ≤ r) ∧
    (rows.foldl minRow start = none → start = none ∧ ∀ r,some r ∉ rows) := by
  induction rows generalizing start with
  | nil =>
    refine ⟨fun e he => ⟨.inl he,fun r hr => ?_,by simp⟩,fun h => ⟨h,by simp⟩⟩
    rw [foldl_nil,hr] at he
    exact (Option.some.inj he).ge
  | cons row rows ih =>
    obtain ⟨hsome,hnone⟩ := ih (minRow start row)
    rw [foldl_cons]
    refine ⟨?_,?_⟩
    · intro e he
      obtain ⟨horigin,hstart,hrows⟩ := hsome e he
      cases row with
      | none =>
        refine ⟨?_,hstart,?_⟩
        · rcases horigin with h | h
          · exact .inl h
          · exact .inr (mem_cons_of_mem _ h)
        · intro r hr
          exact hrows r (by simpa using hr)
      | some first =>
        cases start with
        | none =>
          have hle:=hstart first rfl
          refine ⟨?_,by simp,?_⟩
          · rcases horigin with h | h
            · exact .inr (by rw [← h]; exact mem_cons_self)
            · exact .inr (mem_cons_of_mem _ h)
          · intro r hr
            rcases mem_cons.mp hr with h | h
            · rw [Option.some.inj h]
              exact hle
            · exact hrows r h
        | some held =>
          have hle:=hstart (min held first) rfl
          refine ⟨?_,?_,?_⟩
          · rcases horigin with h | h
            · have heq : min held first = e := Option.some.inj h
              rcases min_choice held first with hmin | hmin
              · exact .inl (by rw [← heq,hmin])
              · exact .inr (by rw [← heq,hmin]; exact mem_cons_self)
            · exact .inr (mem_cons_of_mem _ h)
          · intro r hr
            obtain rfl := Option.some.inj hr
            exact hle.trans (min_le_left _ _)
          · intro r hr
            rcases mem_cons.mp hr with h | h
            · rw [Option.some.inj h]
              exact hle.trans (min_le_right _ _)
            · exact hrows r h
    · intro h
      obtain ⟨hstart,hrows⟩ := hnone h
      cases row with
      | none => exact ⟨hstart,by simpa using hrows⟩
      | some first => cases hstart

end Zeppelin.Fts
