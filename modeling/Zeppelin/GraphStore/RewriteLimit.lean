import Mathlib.Data.List.Perm.Basic
import Zeppelin.GraphStore.RewriteSpec

namespace Zeppelin.GraphStore.Adjacency
open List

def insertChange (direction : Direction) (node relType : ℕ) (edge : Edge) : Change :=
  ⟨node,relType,direction,⟨edge,.insert⟩⟩

theorem combineFrom_inserts (edges : List Edge) :
    combineFrom edges.length [] (inserts edges) = .ok edges := by
  induction edges with
  | nil => rfl
  | cons edge edges ih =>
    simp only [inserts,map_cons,length_cons,combineFrom] at ih ⊢
    simp only [ih,ne_eq,not_true_eq_false,if_false]
    rfl

variable {sequence base : ℕ} {roots : Roots}

theorem emitBases_short {key : RangeKey} {buffer edges : List Edge}
    (h : Holdable key (buffer++edges)) (hcount : (buffer++edges).length ≤ maxBaseEntries)
    (hne : buffer++edges ≠ []) : emitBases sequence key key.lower buffer edges =
      .ok [⟨key,some (baseOnly key sequence (buffer++edges))⟩] := by
  induction edges generalizing buffer with
  | nil =>
    rw [append_nil] at h hcount hne ⊢
    rw [emitBases,if_neg (by simpa using hne),emit,encodeBase_of_le h _ hcount]
    simp only [Except.mapError,ok_bind,new_baseOnly h _ hcount hne]
    rfl
  | cons edge edges ih =>
    have hsplit : buffer++edge::edges = (buffer++[edge])++edges := by simp
    have hshort : buffer.length ≠ maxBaseEntries := by
      rw [length_append,length_cons] at hcount
      omega
    rw [hsplit] at h hcount hne ⊢
    rw [emitBases,if_neg hshort]
    exact ih h hcount hne

theorem update_new {key : RangeKey} {edges : List Edge} (h : Holdable key edges)
    (hlarge : maxPendingEntries < edges.length) (hcount : edges.length ≤ maxBaseEntries) :
    update base ⟨key,none,[]⟩ (inserts edges) =
      .ok [⟨key,some (baseOnly key (base+1) edges)⟩] := by
  have hne : edges ≠ [] := by
    intro hempty
    rw [hempty] at hlarge
    exact Nat.not_lt_zero _ hlarge
  have hcombine : combine [] (inserts edges) = .ok edges := by
    have hlength : ([] : List Edge).length+(inserts edges).length = edges.length := by
      simp [inserts]
    rw [combine,hlength,combineFrom_inserts]
  have hfits : fits none (inserts edges).length = false := by
    simp only [fits,inserts,length_map]
    simp only [decide_eq_false_iff_not,not_and]
    omega
  rw [update,hcombine,ok_bind,if_neg (by simpa using hne),hfits]
  simp only [Bool.false_eq_true,if_false]
  have hemit : emitBases (base+1) key key.lower [] edges =
      .ok [⟨key,some (baseOnly key (base+1) edges)⟩] := emitBases_short h hcount hne
  rw [hemit]
  rfl

theorem collectEdits_new {fuel : ℕ} {direction : Direction}
    {node relType : ℕ} {first : Edge} {edges : List Edge} {rest : List Change}
    (hroot : roots.directory direction = [])
    (h : AscendingEdges (first::edges)) (hlarge : maxPendingEntries < (first::edges).length)
    (hcount : (first::edges).length ≤ maxBaseEntries)
    (hrest : ∀ change ∈ rest,change.direction ≠ direction) : collectEdits base roots (fuel+1)
        ((first::edges).map (insertChange direction node relType)++rest) =
      (collectEdits base roots fuel rest).map fun more =>
        ⟨⟨node,relType,direction,first.rel,.infinity⟩,
          some (baseOnly ⟨node,relType,direction,first.rel,.infinity⟩ (base+1)
            (first::edges))⟩::more := by
  have hholdable : Holdable ⟨node,relType,direction,first.rel,.infinity⟩ (first::edges) := by
    refine ⟨rfl,h,fun edge hedge => ⟨?_,rfl⟩⟩
    rcases mem_cons.mp hedge with rfl | hedge
    · exact Nat.le_refl _
    · exact (h.head_lt edge hedge).le
  have hselect : select base (roots.directory direction) (insertChange direction node relType first) =
      .ok ⟨⟨node,relType,direction,first.rel,.infinity⟩,none,[]⟩ := by
    rw [hroot]
    rfl
  have hin : ∀ change ∈ (first::edges).map (insertChange direction node relType),
      (insertChange direction node relType first).inRange .infinity change = true := by
    intro change hchange
    obtain ⟨edge,-,rfl⟩ := mem_map.mp hchange
    simp [Change.inRange,Change.group,insertChange,UpperBound.above]
  have hout : ∀ change ∈ rest,
      ¬ (insertChange direction node relType first).inRange .infinity change = true := by
    intro change hchange habs
    simp only [Change.inRange,Change.group,insertChange,decide_eq_true_eq,Prod.mk.injEq] at habs
    exact hrest change hchange habs.1.1
  have htake : ((first::edges).map (insertChange direction node relType)++rest).takeWhile
      ((insertChange direction node relType first).inRange .infinity) =
        (first::edges).map (insertChange direction node relType) := by
    rw [takeWhile_append_of_pos hin]
    cases rest with
    | nil => simp
    | cons change rest =>
      rw [takeWhile_cons_of_neg (hout change mem_cons_self),append_nil]
  have hdrop : ((first::edges).map (insertChange direction node relType)++rest).dropWhile
      ((insertChange direction node relType first).inRange .infinity) = rest := by
    rw [dropWhile_append_of_pos hin]
    cases rest with
    | nil => rfl
    | cons change rest => rw [dropWhile_cons_of_neg (hout change mem_cons_self)]
  have hdeltas : ((first::edges).map (insertChange direction node relType)).map Change.delta =
      inserts (first::edges) := by
    rw [map_map]
    rfl
  rw [map_cons,cons_append] at htake hdrop ⊢
  rw [collectEdits]
  change (select base (roots.directory direction) _ >>= _) = _
  rw [hselect,ok_bind]
  simp only [htake,hdrop]
  rw [failIf_neg _ (by simp),ok_bind,← map_cons (f := insertChange direction node relType),
    hdeltas,update_new hholdable hlarge hcount,ok_bind]
  cases collectEdits base roots fuel rest with
  | error e => rfl
  | ok more => rfl

theorem directoryOk_singleton {d : RangeDescriptor} (h : d.Valid sequence) :
    DirectoryOk d.key.direction sequence [d] := by
  refine ⟨pairwise_singleton ..,by simp,by simpa using h,?_⟩
  intro a ha b hb hne
  rw [mem_singleton.mp ha,mem_singleton.mp hb] at hne
  exact absurd rfl hne

theorem flush_singleton (key : RangeKey) (d : RangeDescriptor) (dir : Directory)
    (h : ∀ old ∈ dir,dir = [old] ∧ old.key = key) : flush [⟨key,some d⟩] dir = .ok [d] := by
  cases dir with
  | nil => rfl
  | cons old rest =>
    obtain ⟨hsingle,hkey⟩ := h old mem_cons_self
    rw [hsingle]
    have hself : ¬ KeyLt key key := fun hlt => lt_irrefl _ (keyLt_iff.mp hlt)
    simp only [flush,insertionSort_cons,insertionSort_nil,orderedInsert_nil,
      replaceEdits,ok_bind,foldl_cons,foldl_nil,applyEdit,hkey,if_neg hself]
    rfl

theorem apply_of_collectEdits {changes : List Change}
    {out incoming : RangeDescriptor} (hout : out.Valid (base+1))
    (hincoming : incoming.Valid (base+1)) (houtDirection : out.key.direction = .out)
    (hinDirection : incoming.key.direction = .incoming)
    (hrootsOut : ∀ old ∈ roots.out,roots.out = [old] ∧ old.key = out.key)
    (hrootsIn : ∀ old ∈ roots.incoming,roots.incoming = [old] ∧ old.key = incoming.key)
    (h : collectEdits base roots changes.length changes =
      .ok [⟨out.key,some out⟩,⟨incoming.key,some incoming⟩]) :
    apply base roots changes = .ok ⟨[out],[incoming]⟩ := by
  have heditsOut : editsOf .out [⟨out.key,some out⟩,⟨incoming.key,some incoming⟩] =
      [⟨out.key,some out⟩] := by
    simp [editsOf,houtDirection,hinDirection]
  have heditsIn : editsOf .incoming [⟨out.key,some out⟩,⟨incoming.key,some incoming⟩] =
      [⟨incoming.key,some incoming⟩] := by
    simp [editsOf,houtDirection,hinDirection]
  have hputOut : validatePut out.key.direction (base+1) (base+1) [out] out = .ok () :=
    validatePut_replacement (directoryOk_singleton hout) mem_cons_self rfl hout
  have hputIn : validatePut incoming.key.direction (base+1) (base+1) [incoming] incoming =
      .ok () :=
    validatePut_replacement (directoryOk_singleton hincoming) mem_cons_self rfl hincoming
  have hcheck : checkPrepared (base+1) ⟨[out],[incoming]⟩ [out,incoming] = .ok () := by
    rw [houtDirection] at hputOut
    rw [hinDirection] at hputIn
    simp only [checkPrepared,houtDirection,hinDirection,Roots.directory,hputOut,hputIn,ok_bind]
  rw [apply,h,ok_bind,heditsOut,heditsIn,flush_singleton _ _ _ hrootsOut,ok_bind,
    flush_singleton _ _ _ hrootsIn,ok_bind]
  change (checkPrepared (base+1) ⟨[out],[incoming]⟩ [out,incoming] >>= _) = _
  rw [hcheck]
  rfl

def oneMore (key : RangeKey) (sequence : ℕ) (edges : List Edge) (edge : Edge) : RangeDescriptor :=
  ⟨key,sequence,edges.length,⟨key,sequence,false,inserts edges⟩,
    [⟨key,sequence+1,true,[⟨edge,.insert⟩]⟩],1⟩

section OneMore

variable {key : RangeKey} {edges : List Edge} {edge : Edge}

theorem oneMore_walk (h : Holdable key edges) (hlast : ∀ old ∈ edges,old.rel < edge.rel)
    (sequence : ℕ) :
    walk [⟨key,sequence,false,inserts edges⟩,⟨key,sequence+1,true,[⟨edge,.insert⟩]⟩] =
      .ok (edges++[edge]) := by
  have hshared : NoShared [⟨sequence,inserts edges⟩,⟨sequence+1,[⟨edge,.insert⟩]⟩] := by
    apply pairwise_pair.mpr
    intro x hx y hy
    obtain ⟨old,hold,rfl⟩ := mem_map.mp hx
    rw [mem_singleton.mp hy]
    exact (hlast old hold).ne
  obtain ⟨found,hfound⟩ : ∃ found,walk [⟨key,sequence,false,inserts edges⟩,
      ⟨key,sequence+1,true,[⟨edge,.insert⟩]⟩] = .ok found := walkFrom_noShared hshared
  have hbase : Ascending (inserts edges) := ascending_inserts.mpr h.ascending
  have hdelta : Ascending [⟨edge,.insert⟩] := pairwise_singleton ..
  have hruns : ∀ run ∈ [⟨key,sequence,false,inserts edges⟩,
      ⟨key,sequence+1,true,[⟨edge,.insert⟩]⟩],Ascending (Run.entries run) := by
    intro run hrun
    rcases mem_cons.mp hrun with rfl | hrun
    · exact hbase
    · rw [mem_singleton.mp hrun]
      exact hdelta
  obtain ⟨hsorted,hmem⟩ := walk_ok hruns hfound
  have hall : AscendingEdges (edges++[edge]) := by
    apply pairwise_append.mpr
    refine ⟨h.ascending,pairwise_singleton ..,fun old hold new hnew => ?_⟩
    rw [mem_singleton.mp hnew]
    exact hlast old hold
  rw [hfound,hsorted.ext hall fun found => ?_]
  have hentries : runEntries [⟨key,sequence,false,inserts edges⟩,
      ⟨key,sequence+1,true,[⟨edge,.insert⟩]⟩] =
        [inserts edges]++[[⟨edge,.insert⟩]] := rfl
  rw [hmem,hentries,latest_append_iff hdelta,mem_append]
  have hold : latest found.rel [inserts edges] = some ⟨found,.insert⟩ ↔ found ∈ edges := by
    simp only [latest,Option.none_or]
    rw [hbase.entryAt_iff]
    simp [mem_inserts]
  rw [hold]
  simp only [mem_singleton,DeltaEntry.mk.injEq,and_true,forall_eq]
  constructor
  · rintro (hin | rfl)
    · exact .inl hin.1
    · exact .inr rfl
  · rintro (hin | rfl)
    · exact .inl ⟨hin,(hlast found hin).ne'⟩
    · exact .inr rfl

theorem oneMore_edges (h : Holdable key edges) (hlast : ∀ old ∈ edges,old.rel < edge.rel)
    (sequence : ℕ) : (oneMore key sequence edges edge).edges = edges++[edge] :=
  edges_of_walk (oneMore_walk h hlast sequence)

theorem oneMore_delta_fits (hedge : key.holds edge.rel) (sequence : ℕ) :
    (⟨key,sequence+1,true,[⟨edge,.insert⟩]⟩ : Run).Fits key true := by
  refine ⟨rfl,rfl,UpperBound.above_of_le hedge.1 hedge.2,?_,pairwise_singleton ..,?_⟩
  · simp [maxEntries,maxPendingEntries]
  · simpa using hedge

theorem oneMore_valid (h : Holdable key edges) (hlast : ∀ old ∈ edges,old.rel < edge.rel)
    (hedge : key.holds edge.rel) (hcount : edges.length ≤ maxBaseEntries) (sequence : ℕ) :
    (oneMore key sequence edges edge).Valid (sequence+1) := by
  have hedges:=oneMore_edges h hlast sequence
  constructor
  · rw [hedges]
    refine ⟨Nat.le_succ _,?_,h.fits sequence hcount,rfl,?_,?_,?_,oneMore_walk h hlast _,?_⟩
    · simp [oneMore,maxDeltaRuns]
    · intro run hrun
      rw [oneMore,mem_singleton] at hrun
      subst hrun
      exact ⟨oneMore_delta_fits hedge sequence,Nat.lt_succ_self _,Nat.le_refl _⟩
    · simp [oneMore]
    · simp [oneMore,sumEntries,maxPendingEntries]
    · rw [length_append,length_singleton,maxMergedEntries,maxPendingEntries]
      omega
  · simp [oneMore,inserts]
  · simp [oneMore]
  · simp [oneMore,sumEntries]
  · rw [hedges]
    simp

theorem combine_last (hlast : ∀ old ∈ edges,old.rel < edge.rel) :
    combine edges [⟨edge,.insert⟩] = .ok (edges++[edge]) := by
  rw [combine]
  induction edges with
  | nil => rfl
  | cons old edges ih =>
    have hlt:=hlast old mem_cons_self
    have hrest:=ih fun other hother => hlast other (mem_cons_of_mem _ hother)
    have hfuel : (old::edges).length+[(⟨edge,.insert⟩ : DeltaEntry)].length =
        edges.length+[(⟨edge,.insert⟩ : DeltaEntry)].length+1 := by
      simp only [length_cons]
      omega
    rw [hfuel,combineFrom,if_neg (Nat.not_lt.mpr hlt.le),if_pos hlt,hrest]
    rfl

theorem update_oneMore (h : Holdable key edges) (hlast : ∀ old ∈ edges,old.rel < edge.rel)
    (hedge : key.holds edge.rel) (hcount : edges.length ≤ maxBaseEntries) (sequence : ℕ) :
    update sequence ⟨key,some (baseOnly key sequence edges),edges⟩ [⟨edge,.insert⟩] =
      .ok [⟨key,some (oneMore key sequence edges edge)⟩] := by
  have hfits : fits (some (baseOnly key sequence edges)) 1 = true := by
    simp [fits,baseOnly,appendAdmission,maxPendingEntries,maxDeltaRuns]
  have hdelta : encodeDelta key (sequence+1) [⟨edge,.insert⟩] =
      .ok ⟨key,sequence+1,true,[⟨edge,.insert⟩]⟩ := by
    rw [encodeDelta,if_neg (Nat.succ_ne_zero sequence)]
    exact encode_eq_ok.mpr ⟨rfl,oneMore_delta_fits hedge sequence⟩
  have hnew : RangeDescriptor.new key sequence edges.length
      ⟨key,sequence,false,inserts edges⟩ [⟨key,sequence+1,true,[⟨edge,.insert⟩]⟩] 1 =
        .ok (oneMore key sequence edges edge) := by
    rw [RangeDescriptor.new,if_neg (by simp [maxDeltaRuns]),if_neg (not_not.mpr h.interval),
      if_neg (by simpa [maxPendingEntries] using hcount)]
    rfl
  rw [update,combine_last hlast,ok_bind,if_neg (by simp),length_singleton,hfits,
    if_pos rfl,appendRun]
  simp only [startBase,ok_bind,hdelta,Except.mapError]
  change ((RangeDescriptor.new key sequence edges.length ⟨key,sequence,false,inserts edges⟩
    [⟨key,sequence+1,true,[⟨edge,.insert⟩]⟩] 1 >>= _) >>= _) = _
  rw [hnew]
  rfl

end OneMore

theorem collectEdits_oneMore {sequence fuel : ℕ} {roots : Roots} {direction : Direction}
    {node relType lower : ℕ} {edges : List Edge} {edge : Edge} {rest : List Change}
    (hroot : roots.directory direction =
      [baseOnly ⟨node,relType,direction,lower,.infinity⟩ sequence edges])
    (h : Holdable ⟨node,relType,direction,lower,.infinity⟩ edges) (hne : edges ≠ [])
    (hlast : ∀ old ∈ edges,old.rel < edge.rel) (hlower : lower ≤ edge.rel)
    (hcount : edges.length ≤ maxBaseEntries)
    (hrest : ∀ change ∈ rest,change.direction ≠ direction) :
    collectEdits sequence roots (fuel+1) (insertChange direction node relType edge::rest) =
      (collectEdits sequence roots fuel rest).map fun more =>
        ⟨⟨node,relType,direction,lower,.infinity⟩,
          some (oneMore ⟨node,relType,direction,lower,.infinity⟩ sequence edges edge)⟩::more := by
  have hvalid:=baseOnly_valid h sequence hcount hne
  have hfound : lookupPredecessor (roots.directory direction)
      (insertChange direction node relType edge).key =
        some (baseOnly ⟨node,relType,direction,lower,.infinity⟩ sequence edges) := by
    rw [hroot]
    have hdir : DirectoryOk (insertChange direction node relType edge).direction sequence
        [baseOnly ⟨node,relType,direction,lower,.infinity⟩ sequence edges] :=
      directoryOk_singleton hvalid
    exact predecessor_of_holds hdir mem_cons_self rfl ⟨hlower,rfl⟩
  have hselect : select sequence (roots.directory direction)
      (insertChange direction node relType edge) =
        .ok ⟨⟨node,relType,direction,lower,.infinity⟩,
          some (baseOnly ⟨node,relType,direction,lower,.infinity⟩ sequence edges),edges⟩ := by
    rw [select,hfound]
    simp only
    rw [if_pos ⟨rfl,rfl⟩,validateRange_eq_ok.mpr ⟨hvalid,baseOnly_edges h.ascending sequence⟩]
    rfl
  have hin : (insertChange direction node relType edge).inRange .infinity
      (insertChange direction node relType edge) = true := by
    simp [Change.inRange,UpperBound.above]
  have hout : ∀ change ∈ rest,
      ¬ (insertChange direction node relType edge).inRange .infinity change = true := by
    intro change hchange habs
    simp only [Change.inRange,Change.group,insertChange,decide_eq_true_eq,Prod.mk.injEq] at habs
    exact hrest change hchange habs.1.1
  have htake : (insertChange direction node relType edge::rest).takeWhile
      ((insertChange direction node relType edge).inRange .infinity) =
        [insertChange direction node relType edge] := by
    rw [takeWhile_cons_of_pos hin]
    cases rest with
    | nil => rfl
    | cons change rest => rw [takeWhile_cons_of_neg (hout change mem_cons_self)]
  have hdrop : (insertChange direction node relType edge::rest).dropWhile
      ((insertChange direction node relType edge).inRange .infinity) = rest := by
    rw [dropWhile_cons_of_pos hin]
    cases rest with
    | nil => rfl
    | cons change rest => rw [dropWhile_cons_of_neg (hout change mem_cons_self)]
  have hupdate:=update_oneMore h hlast ⟨hlower,rfl⟩ hcount sequence
  rw [collectEdits]
  change (select sequence (roots.directory direction) _ >>= _) = _
  rw [hselect,ok_bind]
  simp only [htake,hdrop]
  rw [failIf_neg _ (by simp),ok_bind]
  change (update sequence _ [⟨edge,.insert⟩] >>= _) = _
  rw [hupdate,ok_bind]
  cases collectEdits sequence roots fuel rest with
  | error e => rfl
  | ok more => rfl

def created (row : RelationshipRow) : RelationshipDelta := ⟨none,some row,true,true,false⟩

theorem collectChanges_created (rows : List RelationshipRow) :
    collectChanges (rows.map created) = .ok (rows.flatMap fun row => row.directed .insert) := by
  induction rows with
  | nil => rfl
  | cons row rows ih =>
    rw [map_cons,collectChanges,ih]
    rfl

theorem hasDuplicate_of_ordered {changes : List Change} (h : Ordered changes) :
    hasDuplicate changes = false := by
  induction changes with
  | nil => rfl
  | cons first changes ih =>
    cases changes with
    | nil => rfl
    | cons second changes =>
      obtain ⟨hhead,htail⟩ := pairwise_cons.mp h
      have hne:=(hhead second mem_cons_self).ne
      simp only [hasDuplicate,decide_eq_false_iff_not,not_or,Bool.not_eq_true]
      exact ⟨hne,ih htail⟩

theorem sortChanges_eq {changes sorted : List Change} (hperm : changes.Perm sorted)
    (h : Ordered sorted) : sortChanges changes = sorted := by
  have htotal : Std.Total fun a b : Change => a.sortKey ≤ b.sortKey := ⟨fun a b => le_total _ _⟩
  have htrans : IsTrans Change fun a b => a.sortKey ≤ b.sortKey :=
    ⟨fun a b c hab hbc => hab.trans hbc⟩
  have hsorted : (sortChanges changes).Pairwise fun a b => a.sortKey ≤ b.sortKey :=
    pairwise_insertionSort _ changes
  have hpermSorted : (sortChanges changes).Perm sorted :=
    (perm_insertionSort _ changes).trans hperm
  refine hpermSorted.eq_of_pairwise ?_ hsorted (h.imp fun hab => hab.le)
  intro a b ha hb hab hba
  have hsymm : Std.Symm fun a b : Change => a.sortKey ≠ b.sortKey := ⟨fun a b hne => hne.symm⟩
  have hdistinct : sorted.Pairwise fun a b => a.sortKey ≠ b.sortKey := h.imp fun hlt => hlt.ne
  by_contra hne
  exact hdistinct.forall (hpermSorted.mem_iff.mp ha) hb hne (le_antisymm hab hba)

/-- The relationships `1 .. n` from node 1 to node 2. -/
def fanRow (i : ℕ) : RelationshipRow := ⟨i+1,1,2,5⟩

def fanEdges (neighbor n : ℕ) : List Edge := (List.range n).map fun i => ⟨i+1,neighbor⟩

theorem fanEdges_ascending (neighbor n : ℕ) : AscendingEdges (fanEdges neighbor n) := by
  apply pairwise_map.mpr
  exact pairwise_lt_range.imp fun hlt => Nat.succ_lt_succ hlt

theorem fanEdges_lt {neighbor n : ℕ} : ∀ edge ∈ fanEdges neighbor n,edge.rel < n+1 := by
  intro edge hedge
  obtain ⟨i,hi,rfl⟩ := mem_map.mp hedge
  have := mem_range.mp hi
  simp only
  omega

theorem fanEdges_length (neighbor n : ℕ) : (fanEdges neighbor n).length = n := by
  simp [fanEdges]

def fanChanges (n : ℕ) : List Change :=
  (fanEdges 2 n).map (insertChange .out 1 5)++(fanEdges 1 n).map (insertChange .incoming 2 5)

theorem insertChange_ordered (direction : Direction) (node relType : ℕ) {edges : List Edge}
    (h : AscendingEdges edges) : Ordered (edges.map (insertChange direction node relType)) := by
  apply pairwise_map.mpr
  refine h.imp fun {a b} hlt => ?_
  have hgroup : (insertChange direction node relType a).group =
      (insertChange direction node relType b).group := rfl
  exact (sortKey_lt_of_group hgroup).mpr hlt

theorem fanChanges_ordered (n : ℕ) : Ordered (fanChanges n) := by
  apply pairwise_append.mpr
  refine ⟨insertChange_ordered _ _ _ (fanEdges_ascending 2 n),
    insertChange_ordered _ _ _ (fanEdges_ascending 1 n),fun a ha b hb => ?_⟩
  obtain ⟨x,-,rfl⟩ := mem_map.mp ha
  obtain ⟨y,-,rfl⟩ := mem_map.mp hb
  simp [Change.sortKey,insertChange,Direction.code,Prod.Lex.lt_iff]

theorem fanChanges_perm (n : ℕ) :
    (((List.range n).map fanRow).flatMap fun row => row.directed .insert).Perm (fanChanges n) := by
  have hsplit:=flatMap_append_perm (List.range n)
    (fun i => [insertChange .out 1 5 ⟨i+1,2⟩]) (fun i => [insertChange .incoming 2 5 ⟨i+1,1⟩])
  rw [← map_eq_flatMap,← map_eq_flatMap] at hsplit
  rw [flatMap_map,fanChanges,fanEdges,fanEdges,map_map,map_map]
  exact hsplit.symm

def fanKey (direction : Direction) (node : ℕ) : RangeKey := ⟨node,5,direction,1,.infinity⟩

theorem fan_holdable (direction : Direction) (node neighbor n : ℕ) :
    Holdable (fanKey direction node) (fanEdges neighbor n) := by
  refine ⟨rfl,fanEdges_ascending neighbor n,fun edge hedge => ⟨?_,rfl⟩⟩
  obtain ⟨i,-,rfl⟩ := mem_map.mp hedge
  exact Nat.le_add_left 1 i

/-- The state after a first batch of `n` relationships. -/
def fanRoots (n : ℕ) : Roots :=
  ⟨[baseOnly (fanKey .out 1) 1 (fanEdges 2 n)],[baseOnly (fanKey .incoming 2) 1 (fanEdges 1 n)]⟩

theorem fanEdges_cons (neighbor n : ℕ) :
    fanEdges neighbor (n+1) = ⟨1,neighbor⟩::(List.range n).map fun i => ⟨i+2,neighbor⟩ := by
  rw [fanEdges,range_succ_eq_map,map_cons,map_map]
  rfl

theorem prepare_fan {n : ℕ} (hlarge : maxPendingEntries < n+1) (hcount : n+1 ≤ maxBaseEntries) :
    prepareAdjacency 0 ⟨[],[]⟩ ((List.range (n+1)).map fun i => created (fanRow i)) =
      .ok (fanRoots (n+1)) := by
  have hsorted:=sortChanges_eq (fanChanges_perm (n+1)) (fanChanges_ordered (n+1))
  have hnonempty : (fanChanges (n+1)).isEmpty = false := by
    rw [fanChanges,fanEdges_cons]
    rfl
  have hvalid : ∀ (direction : Direction) (node neighbor : ℕ),
      (baseOnly (fanKey direction node) 1 (fanEdges neighbor (n+1))).Valid 1 := by
    intro direction node neighbor
    refine baseOnly_valid (fan_holdable direction node neighbor (n+1)) 1 ?_ ?_
    · rw [fanEdges_length]
      exact hcount
    · rw [fanEdges_cons]
      simp
  have hcollect : collectEdits 0 ⟨[],[]⟩ (fanChanges (n+1)).length (fanChanges (n+1)) =
      .ok [⟨fanKey .out 1,some (baseOnly (fanKey .out 1) 1 (fanEdges 2 (n+1)))⟩,
        ⟨fanKey .incoming 2,some (baseOnly (fanKey .incoming 2) 1 (fanEdges 1 (n+1)))⟩] := by
    have hascending:=fanEdges_ascending
    have hlength:=fanEdges_length
    obtain ⟨fuel,hfuel⟩ : ∃ fuel,(fanChanges (n+1)).length = fuel+2 := by
      refine ⟨n+n,?_⟩
      simp only [fanChanges,length_append,length_map,fanEdges_length]
      omega
    rw [hfuel,fanChanges,fanEdges_cons 2,collectEdits_new rfl (fanEdges_cons 2 n ▸ hascending 2 _)
      (by rwa [← fanEdges_cons,hlength]) (by rwa [← fanEdges_cons,hlength])
      (by simp [insertChange]),← fanEdges_cons,fanEdges_cons 1,
      ← append_nil (List.map (insertChange .incoming 2 5) _),
      collectEdits_new rfl (fanEdges_cons 1 n ▸ hascending 1 _)
      (by rwa [← fanEdges_cons,hlength]) (by rwa [← fanEdges_cons,hlength]) (by simp),
      ← fanEdges_cons]
    cases fuel with
    | zero => rfl
    | succ fuel => rfl
  have happly:=apply_of_collectEdits (hvalid .out 1 2) (hvalid .incoming 2 1) rfl rfl (by simp)
    (by simp) hcollect
  have hmap : ((List.range (n+1)).map fun i => created (fanRow i)) =
      ((List.range (n+1)).map fanRow).map created := by rw [map_map]; rfl
  rw [prepareAdjacency,hmap,collectChanges_created,ok_bind,hsorted,
    hasDuplicate_of_ordered (fanChanges_ordered (n+1)),failIf_neg _ (by simp),ok_bind,hnonempty]
  exact happly

def oneMoreRoots (n : ℕ) : Roots :=
  ⟨[oneMore (fanKey .out 1) 1 (fanEdges 2 n) ⟨n+1,2⟩],
    [oneMore (fanKey .incoming 2) 1 (fanEdges 1 n) ⟨n+1,1⟩]⟩

theorem prepare_oneMore {n : ℕ} (hpos : 0 < n) (hcount : n ≤ maxBaseEntries) :
    prepareAdjacency 1 (fanRoots n) [created (fanRow n)] = .ok (oneMoreRoots n) := by
  have hchanges : collectChanges [created (fanRow n)] =
      .ok [insertChange .out 1 5 ⟨n+1,2⟩,insertChange .incoming 2 5 ⟨n+1,1⟩] := rfl
  have hordered : Ordered [insertChange .out 1 5 ⟨n+1,2⟩,
      insertChange .incoming 2 5 ⟨n+1,1⟩] := by
    apply pairwise_pair.mpr
    simp [Change.sortKey,insertChange,Direction.code,Prod.Lex.lt_iff]
  have hlength : ∀ neighbor,(fanEdges neighbor n).length ≤ maxBaseEntries := by
    intro neighbor
    rw [fanEdges_length]
    exact hcount
  have hne : ∀ neighbor,fanEdges neighbor n ≠ [] := by
    intro neighbor hempty
    rw [← fanEdges_length neighbor n,hempty] at hpos
    exact Nat.not_lt_zero _ hpos
  have hcollect : collectEdits 1 (fanRoots n) 2 [insertChange .out 1 5 ⟨n+1,2⟩,
      insertChange .incoming 2 5 ⟨n+1,1⟩] =
        .ok [⟨fanKey .out 1,some (oneMore (fanKey .out 1) 1 (fanEdges 2 n) ⟨n+1,2⟩)⟩,
          ⟨fanKey .incoming 2,some (oneMore (fanKey .incoming 2) 1 (fanEdges 1 n) ⟨n+1,1⟩)⟩] := by
    have hout : (fanRoots n).directory .out =
        [baseOnly ⟨1,5,.out,1,.infinity⟩ 1 (fanEdges 2 n)] := rfl
    have hin : (fanRoots n).directory .incoming =
        [baseOnly ⟨2,5,.incoming,1,.infinity⟩ 1 (fanEdges 1 n)] := rfl
    rw [collectEdits_oneMore hout (fan_holdable .out 1 2 n) (hne 2) fanEdges_lt
        (Nat.le_add_left 1 n) (hlength 2) (by simp [insertChange]),
      collectEdits_oneMore hin (fan_holdable .incoming 2 1 n) (hne 1) fanEdges_lt
        (Nat.le_add_left 1 n) (hlength 1) (by simp)]
    rfl
  have hvalid : ∀ (direction : Direction) (node neighbor : ℕ),
      (oneMore (fanKey direction node) 1 (fanEdges neighbor n) ⟨n+1,neighbor⟩).Valid 2 := by
    intro direction node neighbor
    have hedge : (fanKey direction node).holds (⟨n+1,neighbor⟩ : Edge).rel :=
      ⟨Nat.le_add_left 1 n,rfl⟩
    exact oneMore_valid (fan_holdable direction node neighbor n) fanEdges_lt hedge
      (hlength neighbor) 1
  have happly : apply 1 (fanRoots n) [insertChange .out 1 5 ⟨n+1,2⟩,
      insertChange .incoming 2 5 ⟨n+1,1⟩] = .ok (oneMoreRoots n) :=
    apply_of_collectEdits (hvalid .out 1 2) (hvalid .incoming 2 1) rfl rfl
      (by simp [fanRoots,baseOnly,oneMore]) (by simp [fanRoots,baseOnly,oneMore]) hcollect
  rw [prepareAdjacency,hchanges,ok_bind,sortChanges_eq (List.Perm.refl _) hordered,
    hasDuplicate_of_ordered hordered,failIf_neg _ (by simp),ok_bind]
  exact happly

/-- A committed range of 4097 edges: a full base and a run of one insert. -/
theorem rewriteRange_refused :
    ∃ d ∈ (oneMoreRoots 4096).directory .out,Committed 2 (oneMoreRoots 4096) ∧
      SweptConsistent d [] ∧ ¬ Rewritten 2 .out ((oneMoreRoots 4096).directory .out) d [] := by
  have hfirst : Committed 1 (fanRoots 4096) :=
    .batch (.empty 0) (prepare_fan (n := 4095) (by decide) (by decide))
  have hsecond : Committed 2 (oneMoreRoots 4096) :=
    .batch hfirst (prepare_oneMore (by decide) (by decide))
  have hswept : ∀ d,SweptConsistent d [] := by
    intro d edge _ row hrow
    cases hrow
  refine ⟨_,mem_cons_self,hsecond,hswept _,fun hrewritten => ?_⟩
  have hcount:=(rewritten_iff (hsecond.reachable.rootsOk .out) mem_cons_self
    (hswept _)).mp hrewritten
  have hall : unswept [] (oneMore (fanKey .out 1) 1 (fanEdges 2 4096) ⟨4097,2⟩).edges =
      (oneMore (fanKey .out 1) 1 (fanEdges 2 4096) ⟨4097,2⟩).edges :=
    filter_eq_self.mpr fun _ _ => rfl
  rw [hall,oneMore_edges (fan_holdable .out 1 2 4096) fanEdges_lt,length_append,
    fanEdges_length] at hcount
  exact absurd hcount (by decide)

end Zeppelin.GraphStore.Adjacency
