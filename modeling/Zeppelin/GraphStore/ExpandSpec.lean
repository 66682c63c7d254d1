import Mathlib.Algebra.BigOperators.Group.List.Basic
import Zeppelin.GraphStore.Expand
import Zeppelin.GraphStore.RangesSpec

namespace Zeppelin.GraphStore.Adjacency
open Collections List

namespace NativeGraphReader

structure EdgeOk (g : NativeGraphReader) (direction : Direction) (key : RangeKey) (edge : Edge) :
    Prop where
  row : ∃ row,g.relationships edge.rel = some row ∧ row.rel = edge.rel ∧
    row.ends direction = (key.node,edge.neighbor) ∧ row.relType = key.relType
  bound : (g.nodes key.node).isSome
  neighbor : (g.nodes edge.neighbor).isSome

/-- Valid directories with nonzero identities, in which every edge has its relationship. -/
structure Coherent (g : NativeGraphReader) : Prop where
  directory : ∀ direction,DirectoryOk direction g.cutoff (g.roots.directory direction)
  nonzero : ∀ direction,∀ d ∈ g.roots.directory direction,1 ≤ d.key.relType ∧ 1 ≤ d.key.lower
  edges : ∀ direction,∀ d ∈ g.roots.directory direction,∀ edge ∈ d.edges,
    g.EdgeOk direction d.key edge

variable (g : NativeGraphReader)

def live (node : ℕ) : Bool := (g.nodes node).getD false

def visibleRow (query : AdjacencyQuery) (edge : Edge) : Option RelationshipRow :=
  if g.live query.node && g.live edge.neighbor then g.relationships edge.rel else none

def rowsFrom (query : AdjacencyQuery) (edges : List Edge) : List RelationshipRow :=
  (edges.takeWhile fun edge => ¬ beyond edge.rel query.relationships.upper).filterMap
    (g.visibleRow query)

def edgesFrom (lower : ℕ) (d : RangeDescriptor) : List Edge :=
  d.edges.filter fun edge => lower ≤ edge.rel

def rangeRows (query : AdjacencyQuery) (ds : List RangeDescriptor) : List RelationshipRow :=
  (ds.takeWhile fun d => query.matching d.key).flatMap fun d =>
    g.rowsFrom query (edgesFrom query.relationships.lower d)

variable {g} {query : AdjacencyQuery}

theorem rangeRows_matching {d : RangeDescriptor} (h : query.matching d.key = true)
    (ds : List RangeDescriptor) : g.rangeRows query (d::ds) =
      g.rowsFrom query (edgesFrom query.relationships.lower d)++g.rangeRows query ds := by
  rw [rangeRows,takeWhile_cons,if_pos h,flatMap_cons]
  rfl

theorem rangeRows_other {d : RangeDescriptor} (h : ¬ query.matching d.key = true)
    (ds : List RangeDescriptor) : g.rangeRows query (d::ds) = [] := by
  rw [rangeRows,takeWhile_cons,if_neg h]
  rfl

theorem rowsFrom_beyond {edge : Edge} (h : beyond edge.rel query.relationships.upper = true)
    (edges : List Edge) : g.rowsFrom query (edge::edges) = [] := by
  rw [rowsFrom,takeWhile_cons_of_neg (by simp [h])]
  rfl

theorem rowsFrom_shown {edge : Edge} (h : ¬ beyond edge.rel query.relationships.upper = true)
    {row : RelationshipRow} (hrow : g.visibleRow query edge = some row) (edges : List Edge) :
    g.rowsFrom query (edge::edges) = row::g.rowsFrom query edges := by
  rw [rowsFrom,takeWhile_cons_of_pos (by simpa using h),filterMap_cons_some hrow]
  rfl

theorem rowsFrom_hidden {edge : Edge} (h : ¬ beyond edge.rel query.relationships.upper = true)
    (hrow : g.visibleRow query edge = none) (edges : List Edge) :
    g.rowsFrom query (edge::edges) = g.rowsFrom query edges := by
  rw [rowsFrom,takeWhile_cons_of_pos (by simpa using h),filterMap_cons_none hrow]
  rfl

theorem endpointLive_ok {node : ℕ} (h : (g.nodes node).isSome) :
    g.endpointLive node = .ok (g.live node) := by
  obtain ⟨live,hlive⟩ := Option.isSome_iff_exists.mp h
  rw [endpointLive,NativeGraphReader.live,hlive]
  rfl

section Edge
variable {key : RangeKey} {edge : Edge} (hnode : key.node = query.node)
  (h : g.EdgeOk query.direction key edge)
include hnode h

theorem authoritative_ok : ∃ row,g.authoritative query key edge = .ok row ∧
    g.relationships edge.rel = some row ∧
    row.adjacency query.direction = ⟨key.relType,edge⟩ ∧
    g.visible row = .ok (g.live query.node && g.live edge.neighbor) := by
  obtain ⟨row,hrow,hrel,hends,htype⟩ := h.row
  rw [hnode] at hends
  have hbound:=endpointLive_ok (hnode ▸ h.bound)
  have hneighbor:=endpointLive_ok h.neighbor
  refine ⟨row,?_,hrow,?_,?_⟩
  · rw [authoritative,rawRelationship,hrow]
    dsimp only
    rw [ok_bind,failIf_neg _ (by simp [hends,htype])]
    rfl
  · rw [RelationshipRow.adjacency,hrel,hends,htype]
  · cases hdirection : query.direction with
    | out =>
      rw [hdirection] at hends
      obtain ⟨hsource,htarget⟩ := Prod.mk.inj hends
      rw [visible,hsource,htarget,hbound,ok_bind,hneighbor]
      rfl
    | incoming =>
      rw [hdirection] at hends
      obtain ⟨htarget,hsource⟩ := Prod.mk.inj hends
      rw [visible,hsource,htarget,hneighbor,ok_bind,hbound,Bool.and_comm]
      rfl

end Edge

section Visit

theorem visitEdges_keeps {key : RangeKey} (hnode : key.node = query.node) {edges : List Edge}
    (h : ∀ edge ∈ edges,g.EdgeOk query.direction key edge) (rows : List AdjacencyRow) :
    g.visitEdges keepRow query key edges rows =
      .ok (rows++(g.rowsFrom query (edges.filter fun edge =>
        query.relationships.lower ≤ edge.rel)).map (·.adjacency query.direction),true) := by
  induction edges generalizing rows with
  | nil => simp [visitEdges,rowsFrom]
  | cons edge edges ih =>
    have hrest:=fun r => ih (fun e he => h e (mem_cons_of_mem _ he)) r
    rw [visitEdges]
    by_cases hlower : edge.rel < query.relationships.lower
    · rw [if_pos hlower,hrest,filter_cons_of_neg (by simpa using hlower)]
    · rw [if_neg hlower,filter_cons_of_pos (by simpa using hlower)]
      by_cases hbeyond : beyond edge.rel query.relationships.upper = true
      · rw [if_pos hbeyond,rowsFrom_beyond hbeyond,map_nil,append_nil]
      · obtain ⟨row,hrow,hfind,hadjacency,hvisible⟩ :=
          authoritative_ok hnode (h edge (mem_cons_self ..))
        rw [if_neg hbeyond,hrow,ok_bind,hvisible,ok_bind]
        by_cases hshown : (g.live query.node && g.live edge.neighbor) = true
        · have hsome : g.visibleRow query edge = some row := by
            rw [visibleRow,if_pos hshown,hfind]
          rw [if_pos hshown,rowsFrom_shown hbeyond hsome,keepRow,ok_bind]
          dsimp only
          rw [if_pos rfl,hrest,map_cons,hadjacency,append_assoc]
          rfl
        · have hnone : g.visibleRow query edge = none := by
            rw [visibleRow,if_neg hshown]
          rw [if_neg hshown,rowsFrom_hidden hbeyond hnone,hrest]

variable (hcoherent : g.Coherent)
include hcoherent

theorem validatedEdges_ok {d : RangeDescriptor}
    (hd : d ∈ g.roots.directory query.direction) : g.validatedEdges d = .ok d.edges := by
  have hvalid:=(hcoherent.directory query.direction).valid d hd
  rw [validatedEdges,validateRange_eq_ok.mpr ⟨hvalid,rfl⟩]
  rfl

theorem visitRanges_keeps {ds : List RangeDescriptor}
    (hds : ∀ d ∈ ds,d ∈ g.roots.directory query.direction) (rows : List AdjacencyRow) :
    g.visitRanges keepRow query ds rows =
      .ok (rows++(g.rangeRows query ds).map (·.adjacency query.direction)) := by
  induction ds generalizing rows with
  | nil => simp [visitRanges,rangeRows]
  | cons d ds ih =>
    have hd:=hds d (mem_cons_self ..)
    rw [visitRanges]
    by_cases hmatching : query.matching d.key = true
    · have hnode : d.key.node = query.node := by
        rw [AdjacencyQuery.matching,decide_eq_true_eq] at hmatching
        exact hmatching.1
      rw [if_neg (not_not.mpr hmatching),validatedEdges_ok hcoherent hd,ok_bind,
        visitEdges_keeps hnode (hcoherent.edges _ d hd),ok_bind]
      dsimp only
      rw [if_pos rfl,ih (fun e he => hds e (mem_cons_of_mem _ he)),
        rangeRows_matching hmatching,map_append,append_assoc]
      rfl
    · rw [if_pos hmatching,rangeRows_other hmatching,map_nil,append_nil]

end Visit

def Known (g : NativeGraphReader) (query : AdjacencyQuery) (known : Option Bool) : Prop :=
  ∀ live ∈ known,live = g.live query.node

/-- A pull into `batch` takes its room from the rows, and stops with a position. -/
structure Fills (g : NativeGraphReader) (query : AdjacencyQuery) (capacity : ℕ) (batch : Batch)
    (rows : List RelationshipRow) (left : ExpansionResume → List RelationshipRow → Prop)
    (result : Batch × Option ExpansionResume) : Prop where
  output : result.1.rows = batch.rows++rows.take (capacity-batch.rows.length)
  known : Known g query result.1.boundLive
  ended : result.2 = none → rows.length < capacity-batch.rows.length
  stopped : ∀ resume,result.2 = some resume → capacity-batch.rows.length ≤ rows.length ∧
    left resume (rows.drop (capacity-batch.rows.length))

theorem boundLive_ok {known : Option Bool} (hknown : Known g query known)
    (h : (g.nodes query.node).isSome) : g.boundLive known query.node = .ok (g.live query.node) := by
  cases known with
  | none => exact endpointLive_ok h
  | some live => rw [boundLive,hknown live rfl]

section Pages
variable {capacity : ℕ}

def EdgesLeft (g : NativeGraphReader) (query : AdjacencyQuery) (key : RangeKey) (edges : List Edge)
    (resume : ExpansionResume) (rows : List RelationshipRow) : Prop :=
  ∃ left,left <:+ edges ∧ resume = nextResume key left ∧ rows = g.rowsFrom query left

theorem expandEdges_fills {key : RangeKey} (hnode : key.node = query.node) {edges : List Edge}
    (h : ∀ edge ∈ edges,g.EdgeOk query.direction key edge) {batch : Batch}
    (hroom : batch.rows.length < capacity) (hknown : Known g query batch.boundLive) :
    ∃ result,g.expandEdges query key capacity edges batch = .ok result ∧
      Fills g query capacity batch (g.rowsFrom query edges) (EdgesLeft g query key edges)
        result := by
  induction edges generalizing batch with
  | nil =>
    refine ⟨(batch,none),rfl,?_,hknown,fun _ => ?_,nofun⟩
    · simp [rowsFrom]
    · exact Nat.sub_pos_of_lt hroom
  | cons edge edges ih =>
    have hedge:=h edge (mem_cons_self ..)
    have hrest:=@ih fun e he => h e (mem_cons_of_mem _ he)
    rw [expandEdges]
    by_cases hbeyond : beyond edge.rel query.relationships.upper = true
    · rw [if_pos hbeyond,rowsFrom_beyond hbeyond]
      refine ⟨(batch,none),rfl,?_,hknown,fun _ => ?_,nofun⟩
      · simp
      · exact Nat.sub_pos_of_lt hroom
    · obtain ⟨row,hrow,hfind,-,-⟩ := authoritative_ok hnode hedge
      have hbound:=boundLive_ok hknown (hnode ▸ hedge.bound)
      have hneighbor : g.neighborLive query (g.live query.node) edge.neighbor =
          .ok (g.live edge.neighbor) := by
        rw [neighborLive]
        by_cases hloop : edge.neighbor = query.node
        · rw [if_pos hloop,hloop]
        · rw [if_neg hloop,endpointLive_ok hedge.neighbor]
      have htold : Known g query (some (g.live query.node)) := fun live hlive =>
        (Option.some.inj hlive).symm
      rw [if_neg hbeyond,hrow,ok_bind,hbound,ok_bind,hneighbor,ok_bind]
      by_cases hshown : (g.live query.node && g.live edge.neighbor) = true
      · have hsome : g.visibleRow query edge = some row := by
          rw [visibleRow,if_pos hshown,hfind]
        have hboth : ¬ (¬ g.live query.node = true ∨ ¬ g.live edge.neighbor = true) := by
          rw [Bool.and_eq_true] at hshown
          simp [hshown.1,hshown.2]
        rw [if_neg hboth,rowsFrom_shown hbeyond hsome]
        by_cases hfull : batch.rows.length+1 = capacity
        · -- the page is full with this row
          have hone : capacity-batch.rows.length = 1 := by omega
          rw [if_pos hfull]
          refine ⟨_,rfl,?_,htold,nofun,?_⟩
          · rw [hone]
            rfl
          · intro resume hresume
            rw [hone]
            refine ⟨by simp,edges,suffix_cons ..,(Option.some.inj hresume).symm,rfl⟩
        · have hmore : (batch.rows++[row]).length < capacity := by
            rw [length_append,length_singleton]
            omega
          obtain ⟨result,hresult,hfills⟩ := @hrest ⟨batch.rows++[row],some (g.live query.node)⟩
            hmore htold
          obtain ⟨hrows,hlive,hended,hstopped⟩ := hfills
          have hstep : capacity-batch.rows.length =
              (capacity-(batch.rows++[row]).length)+1 := by
            rw [length_append,length_singleton]
            omega
          rw [if_neg hfull]
          refine ⟨result,hresult,?_,hlive,fun hnone => ?_,fun resume hresume => ?_⟩
          · rw [hrows,hstep,take_succ_cons,append_assoc]
            rfl
          · have hless:=hended hnone
            rw [length_cons,hstep]
            exact Nat.succ_lt_succ hless
          · obtain ⟨hle,left,hsuffix,hnext,hleft⟩ := hstopped resume hresume
            rw [hstep,length_cons]
            exact ⟨Nat.succ_le_succ hle,left,hsuffix.trans (suffix_cons ..),hnext,
              by rw [drop_succ_cons,hleft]⟩
      · -- an invisible edge takes no room
        have hnone : g.visibleRow query edge = none := by
          rw [visibleRow,if_neg hshown]
        have hhidden : ¬ g.live query.node = true ∨ ¬ g.live edge.neighbor = true := by
          rw [Bool.and_eq_true] at hshown
          exact Decidable.not_and_iff_or_not.mp hshown
        obtain ⟨result,hresult,hrows,hlive,hended,hstopped⟩ :=
          @hrest ⟨batch.rows,some (g.live query.node)⟩ hroom htold
        rw [if_pos hhidden,rowsFrom_hidden hbeyond hnone]
        refine ⟨result,hresult,hrows,hlive,hended,fun resume hresume => ?_⟩
        obtain ⟨hle,left,hsuffix,hnext,hleft⟩ := hstopped resume hresume
        exact ⟨hle,left,hsuffix.trans (suffix_cons ..),hnext,hleft⟩

def RangesLeft (g : NativeGraphReader) (query : AdjacencyQuery) (ds : List RangeDescriptor)
    (resume : ExpansionResume) (rows : List RelationshipRow) : Prop :=
  ∃ d behind left,d::behind <:+ ds ∧ query.matching d.key = true ∧
    left <:+ edgesFrom query.relationships.lower d ∧ resume = nextResume d.key left ∧
    rows = g.rowsFrom query left++g.rangeRows query behind

def FillsRanges (g : NativeGraphReader) (query : AdjacencyQuery) (capacity : ℕ)
    (ds : List RangeDescriptor) (pull : Batch → Read (Batch × Option ExpansionResume)) : Prop :=
  ∀ batch : Batch,batch.rows.length < capacity → Known g query batch.boundLive →
    ∃ result,pull batch = .ok result ∧
      Fills g query capacity batch (g.rangeRows query ds) (RangesLeft g query ds) result

section Ranges
variable (hcoherent : g.Coherent) {d : RangeDescriptor}
  (hd : d ∈ g.roots.directory query.direction) (hmatching : query.matching d.key = true)
include hcoherent hd

theorem drop_partition (lower : ℕ) :
    d.edges.drop (slicePartitionPoint (fun edge => edge.rel < lower) d.edges) =
      edgesFrom lower d := by
  have hascending:=((hcoherent.directory query.direction).valid d hd).ascending
  have hordered : d.edges.Pairwise fun a b =>
      decide (b.rel < lower) = true → decide (a.rel < lower) = true := by
    refine hascending.imp fun {a b} hab => ?_
    rw [decide_eq_true_eq,decide_eq_true_eq]
    exact fun hb => hab.trans hb
  have hfront:=take_slicePartitionPoint hordered
  have hbehind:=drop_slicePartitionPoint hordered
  rw [edgesFrom]
  conv_rhs => rw [← take_append_drop
    (slicePartitionPoint (fun edge => decide (edge.rel < lower)) d.edges) d.edges]
  rw [filter_append,filter_eq_nil_iff.mpr,filter_eq_self.mpr,nil_append]
  · intro edge hedge
    have hnot:=hbehind edge hedge
    rw [decide_eq_false_iff_not] at hnot
    exact decide_eq_true (Nat.le_of_not_lt hnot)
  · intro edge hedge
    have hless:=hfront edge hedge
    rw [decide_eq_true_eq] at hless ⊢
    exact Nat.not_le_of_lt hless

include hmatching

theorem expandRange_fills {behind : List RangeDescriptor} {lower : ℕ}
    (hlower : edgesFrom lower d <:+ edgesFrom query.relationships.lower d)
    {rest : Batch → Read (Batch × Option ExpansionResume)}
    (hrest : FillsRanges g query capacity behind rest) {batch : Batch}
    (hroom : batch.rows.length < capacity) (hknown : Known g query batch.boundLive) :
    ∃ result,g.expandRange query capacity lower d batch rest = .ok result ∧
      Fills g query capacity batch
        (g.rowsFrom query (edgesFrom lower d)++g.rangeRows query behind)
        (RangesLeft g query (d::behind)) result := by
  have hnode : d.key.node = query.node := by
    rw [AdjacencyQuery.matching,decide_eq_true_eq] at hmatching
    exact hmatching.1
  have hedges : ∀ edge ∈ edgesFrom lower d,g.EdgeOk query.direction d.key edge :=
    fun edge hedge => hcoherent.edges _ d hd edge (mem_filter.mp hedge).1
  obtain ⟨⟨page,next⟩,hpage,hrows,hlive,hended,hstopped⟩ :=
    expandEdges_fills hnode hedges hroom hknown
  rw [expandRange,validatedEdges_ok hcoherent hd,ok_bind]
  dsimp only at hrows hlive hended hstopped ⊢
  rw [drop_partition hcoherent hd,hpage,ok_bind]
  cases next with
  | some resume =>
    obtain ⟨hle,left,hsuffix,hnext,hleft⟩ := hstopped resume rfl
    refine ⟨(page,some resume),rfl,?_,hlive,nofun,?_⟩
    · rw [hrows,take_append_of_le_length hle]
    · intro other hother
      obtain rfl := Option.some.inj hother
      refine ⟨hle.trans (by simp),d,behind,left,suffix_rfl,hmatching,
        hsuffix.trans hlower,hnext,?_⟩
      rw [drop_append_of_le_length hle,hleft]
  | none =>
    have hless:=hended rfl
    rw [take_of_length_le hless.le] at hrows
    have hmore : page.rows.length < capacity := by
      rw [hrows,length_append]
      omega
    obtain ⟨result,hresult,hrows',hlive',hended',hstopped'⟩ := hrest page hmore hlive
    have hroom' : capacity-page.rows.length =
        capacity-batch.rows.length-(g.rowsFrom query (edgesFrom lower d)).length := by
      rw [hrows,length_append]
      omega
    rw [hroom'] at hrows' hended' hstopped'
    refine ⟨result,hresult,?_,hlive',fun hnone => ?_,fun resume hresume => ?_⟩
    · rw [hrows',hrows,List.take_append,take_of_length_le hless.le,append_assoc]
    · have hshort:=hended' hnone
      rw [length_append]
      omega
    · obtain ⟨hle,e,behind',left,hsuffix,hleft⟩ := hstopped' resume hresume
      refine ⟨by rw [length_append]; omega,e,behind',left,
        hsuffix.trans (suffix_cons ..),?_⟩
      rw [drop_append,drop_of_length_le hless.le,nil_append]
      exact hleft

end Ranges

theorem expandRanges_fills (hcoherent : g.Coherent) {ds : List RangeDescriptor}
    (hds : ∀ d ∈ ds,d ∈ g.roots.directory query.direction) :
    FillsRanges g query capacity ds (g.expandRanges query capacity ds none) := by
  induction ds with
  | nil =>
    intro batch hroom hknown
    refine ⟨(batch,none),rfl,?_,hknown,fun _ => Nat.sub_pos_of_lt hroom,nofun⟩
    simp [rangeRows]
  | cons d ds ih =>
    intro batch hroom hknown
    have hrest:=ih fun e he => hds e (mem_cons_of_mem _ he)
    rw [expandRanges]
    by_cases hmatching : query.matching d.key = true
    · rw [if_neg (not_not.mpr hmatching),rangeRows_matching hmatching]
      exact expandRange_fills hcoherent (hds d (mem_cons_self ..)) hmatching suffix_rfl
        hrest hroom hknown
    · rw [if_pos hmatching,rangeRows_other hmatching]
      refine ⟨(batch,none),rfl,?_,hknown,fun _ => Nat.sub_pos_of_lt hroom,nofun⟩
      simp

variable {dir : Directory} {start : RangeKey}

theorem seek_subset {probe : RangeKey} :
    ∀ d ∈ seek dir probe,d ∈ dir := fun _ hd => (mem_filter.mp hd).1

theorem seek_congr {a b : RangeKey} (h : a.pos = b.pos) : seek dir a = seek dir b := by
  refine filter_congr fun d _ => ?_
  rw [decide_eq_decide,keyLt_iff,keyLt_iff,h]

theorem seek_suffix (hdir : Sorted dir) {d : RangeDescriptor}
    {behind : List RangeDescriptor} (h : d::behind <:+ seek dir start) :
    seek dir d.key = d::behind := by
  obtain ⟨front,hfront⟩ := h
  have hsorted : (front++d::behind).Pairwise fun a b => a.key.pos < b.key.pos := by
    rw [hfront]
    exact hdir.filter _
  have hstart : start.pos ≤ d.key.pos := by
    have hd : d ∈ seek dir start := hfront ▸ mem_append_right _ (mem_cons_self ..)
    simpa [keyLt_iff] using (mem_filter.mp hd).2
  have htwice : seek dir d.key = (seek dir start).filter fun e => ¬ KeyLt e.key d.key := by
    rw [seek,seek,filter_filter]
    refine filter_congr fun e _ => ?_
    rw [← Bool.decide_and,decide_eq_decide,keyLt_iff,keyLt_iff,not_lt,not_lt]
    exact (and_iff_left_of_imp hstart.trans).symm
  obtain ⟨-,hrest,hcross⟩ := pairwise_append.mp hsorted
  rw [htwice,← hfront,filter_append,filter_eq_nil_iff.mpr,nil_append,
    filter_eq_self.mpr]
  · intro e he
    rw [decide_eq_true_eq,keyLt_iff,not_lt]
    rcases mem_cons.mp he with rfl | hmem
    · exact le_rfl
    · exact ((pairwise_cons.mp hrest).1 e hmem).le
  · intro e he
    rw [decide_eq_true_eq,keyLt_iff,not_not]
    exact hcross e he d (mem_cons_self ..)

def Left (g : NativeGraphReader) (query : AdjacencyQuery) (position : Pull)
    (rows : List RelationshipRow) : Prop :=
  Known g query position.2 ∧
    match position.1 with
    | none => rows = g.rangeRows query
        (seek (g.roots.directory query.direction) (g.expansionStart query none))
    | some resume => ∃ start,
        RangesLeft g query (seek (g.roots.directory query.direction) start) resume rows

theorem expansionStart_nextResume (key : RangeKey) (left : List Edge) :
    g.expansionStart query (some (nextResume key left)) = key := by
  cases left <;> rfl

theorem edgesFrom_head {d : RangeDescriptor} (hascending : AscendingEdges d.edges) {lower : ℕ}
    {edge : Edge} {edges : List Edge} (h : edge::edges <:+ edgesFrom lower d) :
    edgesFrom edge.rel d = edge::edges := by
  obtain ⟨front,hfront⟩ := h
  have hsorted : (front++edge::edges).Pairwise fun a b => a.rel < b.rel := by
    rw [hfront]
    exact hascending.filter _
  have hlower : lower ≤ edge.rel := by
    have hmem : edge ∈ edgesFrom lower d :=
      hfront ▸ mem_append_right _ (mem_cons_self ..)
    simpa using (mem_filter.mp hmem).2
  have htwice : edgesFrom edge.rel d = (edgesFrom lower d).filter fun e => edge.rel ≤ e.rel := by
    rw [edgesFrom,edgesFrom,filter_filter]
    refine filter_congr fun e _ => ?_
    rw [← Bool.decide_and,decide_eq_decide]
    exact (and_iff_left_of_imp hlower.trans).symm
  obtain ⟨-,hrest,hcross⟩ := pairwise_append.mp hsorted
  rw [htwice,← hfront,filter_append,filter_eq_nil_iff.mpr,nil_append,
    filter_eq_self.mpr]
  · intro e he
    rw [decide_eq_true_eq]
    rcases mem_cons.mp he with rfl | hmem
    · exact le_rfl
    · exact ((pairwise_cons.mp hrest).1 e hmem).le
  · intro e he
    rw [decide_eq_true_eq]
    exact Nat.not_le_of_lt (hcross e he edge (mem_cons_self ..))

theorem expandRanges_resumed (hcoherent : g.Coherent) {resume : ExpansionResume}
    {rows : List RelationshipRow}
    (hleft : RangesLeft g query (seek (g.roots.directory query.direction) start) resume rows)
    {batch : Batch} (hroom : batch.rows.length < capacity)
    (hknown : Known g query batch.boundLive) :
    ∃ result,g.expandRanges query capacity (seek (g.roots.directory query.direction)
        (g.expansionStart query (some resume))) (some resume) batch = .ok result ∧
      Fills g query capacity batch rows (fun next left => ∃ start,
        RangesLeft g query (seek (g.roots.directory query.direction) start) next left)
        result := by
  obtain ⟨d,behind,left,hsuffix,hmatching,hedges,rfl,rfl⟩ := hleft
  have hdirectory:=hcoherent.directory query.direction
  have hseek:=seek_suffix hdirectory.sorted hsuffix
  have hd : d ∈ g.roots.directory query.direction :=
    seek_subset d (hsuffix.subset (mem_cons_self ..))
  have hbehind : ∀ e ∈ behind,e ∈ g.roots.directory query.direction := fun e he =>
    seek_subset e (hsuffix.subset (mem_cons_of_mem _ he))
  have hrest:=@expandRanges_fills _ _ capacity hcoherent _ hbehind
  rw [expansionStart_nextResume,hseek]
  cases left with
  | nil =>
    obtain ⟨result,hresult,hfills⟩ := hrest batch hroom hknown
    rw [nextResume,expandRanges,if_neg (not_not.mpr hmatching),if_neg (not_not.mpr rfl)]
    refine ⟨result,hresult,hfills.output,hfills.known,hfills.ended,fun next hnext => ?_⟩
    obtain ⟨hle,e,behind',left,hsuffix',hleft⟩ := hfills.stopped next hnext
    exact ⟨hle,start,e,behind',left,
      (hsuffix'.trans (suffix_cons ..)).trans hsuffix,hleft⟩
  | cons edge edges =>
    have hhead:=edgesFrom_head (hdirectory.valid d hd).ascending hedges
    obtain ⟨result,hresult,hfills⟩ := expandRange_fills hcoherent hd hmatching
      (hhead ▸ hedges) hrest hroom hknown
    rw [hhead] at hfills
    rw [nextResume,expandRanges,if_neg (not_not.mpr hmatching),if_neg (not_not.mpr rfl)]
    refine ⟨result,hresult,hfills.output,hfills.known,hfills.ended,fun next hnext => ?_⟩
    obtain ⟨hle,e,behind',left,hsuffix',hleft⟩ := hfills.stopped next hnext
    exact ⟨hle,start,e,behind',left,hsuffix'.trans hsuffix,hleft⟩

theorem pullFrom_takesPage (hcoherent : g.Coherent)
    (hquery : checkRange query.relationships = .ok ()) :
    TakesPage (g.pullFrom query) (Left g query) := by
  intro ⟨resume,known⟩ rows capacity ⟨hknown,hleft⟩ hcapacity
  have hpull : ∃ result,g.expandFrom query resume known capacity = .ok result ∧
      Fills g query capacity ⟨[],known⟩ rows (fun next left => ∃ start,
        RangesLeft g query (seek (g.roots.directory query.direction) start) next left)
        result := by
    rw [expandFrom,hquery,ok_bind,failIf_neg _ (Nat.pos_iff_ne_zero.mp hcapacity),ok_bind]
    cases resume with
    | none =>
      obtain rfl : rows = _ := hleft
      obtain ⟨result,hresult,hfills⟩ :=
        expandRanges_fills hcoherent seek_subset ⟨[],known⟩ hcapacity hknown
      exact ⟨result,hresult,hfills.output,hfills.known,hfills.ended,fun next hnext =>
        ⟨(hfills.stopped next hnext).1,_,(hfills.stopped next hnext).2⟩⟩
    | some resume =>
      obtain ⟨start,hleft⟩ := hleft
      exact expandRanges_resumed hcoherent hleft hcapacity hknown
  obtain ⟨⟨batch,next⟩,hresult,houtput,hlive,hended,hstopped⟩ := hpull
  dsimp only [length_nil,nil_append,Nat.sub_zero] at houtput hended hstopped
  refine ⟨next.map fun resume => (some resume,batch.boundLive),?_,?_,?_⟩
  · rw [pullFrom,hresult,ok_bind]
    dsimp only
    rw [houtput]
    rfl
  · intro hnone
    exact hended (Option.map_eq_none_iff.mp hnone)
  · intro behind hbehind
    obtain ⟨resume',hnext,rfl⟩ := Option.map_eq_some_iff.mp hbehind
    obtain ⟨hle,hleft'⟩ := hstopped resume' hnext
    exact ⟨hle,hlive,hleft'⟩

end Pages

theorem startKey_least (hcoherent : g.Coherent) (hleast : query.relationships.lower ≤ 1)
    (htype : query.relationshipType.isSome = true) :
    (query.startKey (g.roots.directory query.direction)).pos = query.probe.pos := by
  have hlower : query.relationships.lower = 1 := Nat.le_antisymm hleast query.relationships.nonzero
  obtain ⟨wanted,hwanted⟩ := Option.isSome_iff_exists.mp htype
  rw [AdjacencyQuery.startKey]
  cases hfound : lookupPredecessor (g.roots.directory query.direction) query.probe with
  | none => rfl
  | some d =>
    dsimp only
    by_cases hreaches : d.key.node = query.node ∧ some d.key.relType = query.relationshipType ∧
        ¬ beyond query.relationships.lower d.key.upper = true
    · obtain ⟨hd,hle,-⟩ :=
        lookupPredecessor_some (hcoherent.directory query.direction).sorted hfound
      have hnonzero:=(hcoherent.nonzero query.direction d hd).2
      have hprobe : query.probe.pos = toLex (query.node,toLex (wanted,1)) := by
        rw [RangeKey.pos,AdjacencyQuery.probe,hwanted,hlower]
        rfl
      have hreltype : d.key.relType = wanted := by
        rw [hwanted] at hreaches
        exact Option.some.inj hreaches.2.1
      rw [hprobe,RangeKey.pos,hreaches.1,hreltype] at hle
      simp only [Prod.Lex.le_iff,ofLex_toLex,lt_irrefl,true_and,false_or] at hle
      rw [if_pos hreaches,hprobe,RangeKey.pos,hreaches.1,hreltype,
        Nat.le_antisymm hle hnonzero]
    · rw [if_neg hreaches]

theorem seek_expansionStart (hcoherent : g.Coherent) :
    seek (g.roots.directory query.direction) (g.expansionStart query none) =
      seek (g.roots.directory query.direction)
        (if query.relationshipType.isSome then
          query.startKey (g.roots.directory query.direction) else query.probe) := by
  rw [expansionStart]
  by_cases htype : query.relationshipType.isSome = true
  · by_cases hlower : 1 < query.relationships.lower
    · rw [if_pos ⟨hlower,htype⟩,if_pos htype]
    · rw [if_neg (fun hboth => hlower hboth.1),if_pos htype]
      exact (seek_congr (startKey_least hcoherent (Nat.le_of_not_lt hlower) htype)).symm
  · rw [if_neg (fun hboth => htype hboth.2),if_neg htype]

/-- The pages of an expansion are the rows of one pass, and the pulls end. -/
theorem expansion_pages_exact (hcoherent : g.Coherent)
    (hquery : checkRange query.relationships = .ok ()) :
    ∃ rows,g.visitAdjacency keepRow query [] =
        .ok (rows.map (·.adjacency query.direction)) ∧
      ∀ capacities,(∀ capacity ∈ capacities,0 < capacity) →
        ∃ pages ended,pulls (g.pullFrom query) (none,none) capacities = .ok (pages,ended) ∧
          pages = rows.take capacities.sum ∧ (ended = true → pages = rows) ∧
          (rows.length < capacities.length → ended = true) := by
  refine ⟨g.rangeRows query
    (seek (g.roots.directory query.direction) (g.expansionStart query none)),?_,?_⟩
  · rw [visitAdjacency,hquery,ok_bind,seek_expansionStart hcoherent]
    dsimp only
    rw [visitRanges_keeps hcoherent seek_subset]
    rfl
  · intro capacities hpositive
    have hstart : Left g query (none,none) (g.rangeRows query
        (seek (g.roots.directory query.direction) (g.expansionStart query none))) :=
      ⟨fun live hlive => absurd hlive (Option.not_mem_none live),rfl⟩
    obtain ⟨ended,hpages,hended⟩ :=
      pulls_spec (pullFrom_takesPage hcoherent hquery) hstart hpositive
    refine ⟨_,ended,hpages,rfl,fun hend => ?_,fun hmany => ?_⟩
    · exact take_of_length_le (hended.mp hend).le
    · have hsum:=length_le_sum_of_one_le capacities hpositive
      exact hended.mpr (hmany.trans_le hsum)

def sampleRange (node relType : ℕ) (direction : Direction) (edges : List Edge) : RangeDescriptor :=
  ⟨⟨node,relType,direction,1,.infinity⟩,1,edges.length,
    ⟨⟨node,relType,direction,1,.infinity⟩,1,false,edges.map fun edge => ⟨edge,.insert⟩⟩,
    [],0⟩

def sampleRow (rel : ℕ) : Option RelationshipRow :=
  [⟨1,1,2,1⟩,⟨2,1,3,1⟩,⟨3,1,2,2⟩].find? fun row : RelationshipRow => row.rel = rel

def sampleGraph : NativeGraphReader where
  roots := {
    out := [sampleRange 1 1 .out [⟨1,2⟩,⟨2,3⟩],sampleRange 1 2 .out [⟨3,2⟩]]
    incoming := [sampleRange 2 1 .incoming [⟨1,1⟩],sampleRange 2 2 .incoming [⟨3,1⟩],
      sampleRange 3 1 .incoming [⟨2,1⟩]] }
  cutoff := 1
  relationships := sampleRow
  nodes := fun node => if node = 3 then some false else if node ≤ 2 then some true else none

def sampleQuery : AdjacencyQuery := ⟨1,.out,none,⟨1,.infinity,le_rfl⟩⟩

theorem sampleDirectory_ok {direction : Direction} {dir : Directory}
    (hsorted : dir.Pairwise fun a b => KeyLt a.key b.key)
    (hdirection : ∀ d ∈ dir,d.key.direction = direction)
    (hvalid : ∀ d ∈ dir,validateRange 1 d = .ok d.edges)
    (hgroups : ∀ a ∈ dir,∀ b ∈ dir,a ≠ b → a.key.group ≠ b.key.group) :
    DirectoryOk direction 1 dir :=
  ⟨hsorted.imp keyLt_iff.mp,hdirection,fun d hd => (validateRange_eq_ok.mp (hvalid d hd)).1,
    fun a ha b hb hne hgroup => absurd hgroup (hgroups a ha b hb hne)⟩

theorem sampleGraph_coherent : sampleGraph.Coherent := by
  have hrows : ∀ direction,∀ d ∈ sampleGraph.roots.directory direction,∀ edge ∈ d.edges,
      (sampleRow edge.rel).any (fun row => row.rel = edge.rel ∧
        row.ends direction = (d.key.node,edge.neighbor) ∧ row.relType = d.key.relType) = true ∧
      (sampleGraph.nodes d.key.node).isSome = true ∧
      (sampleGraph.nodes edge.neighbor).isSome = true := by
    intro direction
    cases direction <;> decide +kernel
  refine ⟨?_,?_,?_⟩
  · intro direction
    cases direction <;>
      exact sampleDirectory_ok (by decide +kernel) (by decide +kernel) (by decide +kernel)
        (by decide +kernel)
  · intro direction
    cases direction <;> decide +kernel
  · intro direction d hd edge hedge
    obtain ⟨hrow,hbound,hneighbor⟩ := hrows direction d hd edge hedge
    obtain ⟨row,hfind,hrow⟩ := Option.any_eq_true .. |>.mp hrow
    exact ⟨⟨row,hfind,of_decide_eq_true hrow⟩,hbound,hneighbor⟩

theorem expansion_pages_exact_sample :
    ∃ rows,sampleGraph.visitAdjacency keepRow sampleQuery [] =
        .ok (rows.map (·.adjacency sampleQuery.direction)) ∧
      ∃ pages,pulls (sampleGraph.pullFrom sampleQuery) (none,none) [1,2,1,1,1] =
        .ok (pages,true) ∧ pages = rows ∧ rows.length = 2 := by
  obtain ⟨rows,hvisit,hpages⟩ := @expansion_pages_exact sampleGraph sampleQuery
    sampleGraph_coherent rfl
  obtain ⟨pages,ended,hpulls,-,hall,hmany⟩ := hpages [1,2,1,1,1] (by decide)
  have hrows : (sampleGraph.visitAdjacency keepRow sampleQuery []).toOption.map List.length =
      some 2 := by decide +kernel
  rw [hvisit] at hrows
  have hlength : rows.length = 2 := by simpa [Except.toOption] using hrows
  have hended : ended = true := hmany (by rw [hlength]; decide)
  exact ⟨rows,hvisit,pages,by rw [hpulls,hended],hall hended,hlength⟩

end NativeGraphReader

end Zeppelin.GraphStore.Adjacency
