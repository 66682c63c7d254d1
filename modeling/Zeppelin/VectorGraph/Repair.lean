import Mathlib.Data.Finset.Card
import Zeppelin.Bytes.LittleEndian
import Zeppelin.Collections.Flood

/-! graph/refine.rs -/

namespace Zeppelin.VectorGraph
open Machine List

def entryFlag : U8 := 0b00000001
def hubFlag : U8 := 0b00000010

def u32Max : ℕ := 2^32-1

/-- The layout by its degree; the passes that were made are not used here. -/
structure OwnedGraph where
  maxDegree : U8
  flags : List U8
  neighbors : List (List ℕ)
  deriving DecidableEq

inductive RepairError where
  | profileDegree (graph profile : U8)
  | rowsExceedU32
  | rowExceedsU32 (row : ℕ)
  | noEntry
  | outsideRows (node nodeCount : ℕ)
  | rowUnavailable (row : ℕ)
  | flagsUnavailable (row : ℕ)
  | queueNode (node : ℕ)
  | rootUnavailable
  | zeroDegree
  | noSpareEdge
  | noReplacement (owner : ℕ)
  | replacementUnavailable (slot : ℕ)
  | fullTarget
  | hubDegree (owner found expected : ℕ)
  | unfinished
  deriving DecidableEq

abbrev Repair := Except RepairError

def rowNumber (row : ℕ) : Repair ℕ := if row ≤ u32Max then .ok row else .error (.rowExceedsU32 row)

def OwnedGraph.nodeCount (graph : OwnedGraph) : Repair ℕ :=
  if graph.neighbors.length ≤ u32Max then .ok graph.neighbors.length else .error .rowsExceedU32

def nodeIndex (node nodeCount : ℕ) : Repair ℕ :=
  if nodeCount ≤ node then .error (.outsideRows node nodeCount) else .ok node

def OwnedGraph.row (graph : OwnedGraph) (owner : ℕ) : Repair (List ℕ) :=
  match graph.neighbors[owner]? with
  | none => .error (.rowUnavailable owner)
  | some row => .ok row

def OwnedGraph.flagsOf (graph : OwnedGraph) (owner : ℕ) : Repair U8 :=
  match graph.flags[owner]? with
  | none => .error (.flagsUnavailable owner)
  | some flags => .ok flags

def OwnedGraph.checkedRow (graph : OwnedGraph) (nodeCount owner : ℕ) : Repair (List ℕ) := do
  let index ← nodeIndex owner nodeCount
  graph.row index

def firstEntry (graph : OwnedGraph) : Repair ℕ :=
  match graph.flags.findIdx? (fun flags => flags &&& entryFlag ≠ 0) with
  | none => .error .noEntry
  | some node => rowNumber node

abbrev Seen := Flood.State Bool

def markAndEnqueueByte (node : ℕ) (seen : Seen) : Repair Seen :=
  Flood.enqueue false (fun _ => True) .queueNode true seen node

/-- `while let Some(owner) = queue.pop_front()` -/
def drainQueue (graph : OwnedGraph) (nodeCount : ℕ) (seen : Seen) : Repair Seen :=
  Flood.flood false (fun _ => True) .queueNode .unfinished (graph.checkedRow nodeCount)
    (fun _ => true) seen

/-- The owner that each seen row is reached from; `u32::MAX` is none. -/
def treeParents (graph : OwnedGraph) (seen : List Bool) (nodeCount root : ℕ) : Repair (List ℕ) := do
  let rootIndex ← nodeIndex root nodeCount
  failIf (graph.neighbors.length ≤ rootIndex) .rootUnavailable
  let parents:=(List.replicate graph.neighbors.length u32Max).set rootIndex root
  let tree ← Flood.flood u32Max (fun node => seen[node]? = some true) (.outsideRows · nodeCount)
    .unfinished (graph.checkedRow nodeCount) id ⟨parents,[root]⟩
  return tree.marks

def spareSlot (nodeCount : ℕ) (parents : List ℕ) (owner : ℕ) (edge : ℕ × ℕ) :
    Repair (Option (ℕ × ℕ)) := do
  let index ← nodeIndex edge.1 nodeCount
  return if parents[index]? ≠ some owner then some (owner,edge.2) else none

def spareEdge (graph : OwnedGraph) (nodeCount : ℕ) (parents : List ℕ) (marker : Bool × ℕ) :
    Repair (Option (ℕ × ℕ)) :=
  if marker.1 = false then .ok none
  else do
    let owner ← rowNumber marker.2
    let row ← graph.row owner
    row.zipIdx.reverse.findSomeM? (spareSlot nodeCount parents owner)

def replaceableNonTreeEdge (graph : OwnedGraph) (seen : List Bool) : Repair (ℕ × ℕ) := do
  let nodeCount ← graph.nodeCount
  let root ← firstEntry graph
  let parents ← treeParents graph seen nodeCount root
  match ← seen.zipIdx.findSomeM? (spareEdge graph nodeCount parents) with
  | some edge => .ok edge
  | none => .error .noSpareEdge

def roomyRow (graph : OwnedGraph) (maximum : ℕ) (requiredFlag : U8) (marker : Bool × ℕ) :
    Repair (Option ℕ) := do
  let flags ← graph.flagsOf marker.2
  let row ← graph.row marker.2
  if marker.1 ∧ row.length < maximum ∧ (requiredFlag = 0 ∨ flags &&& requiredFlag ≠ 0) then
    let owner ← rowNumber marker.2
    return some owner
  else return none

/-- Where the next edge starts, and the slot that it takes where every row is full. -/
def connectivitySource (graph : OwnedGraph) (seen : List Bool) (maximum : ℕ) :
    Repair (ℕ × Option ℕ) := do
  let roomy ← [hubFlag,entryFlag,0].findSomeM? fun requiredFlag =>
    seen.zipIdx.findSomeM? (roomyRow graph maximum requiredFlag)
  match roomy with
  | some owner => return (owner,none)
  | none =>
    let edge ← replaceableNonTreeEdge graph seen
    return (edge.1,some edge.2)

def OwnedGraph.setRow (graph : OwnedGraph) (owner : ℕ) (row : List ℕ) : OwnedGraph :=
  { graph with neighbors := graph.neighbors.set owner row }

def rowWithTarget (owner target maximum : ℕ) (replacement : Option ℕ) (row : List ℕ) :
    Repair (List ℕ) :=
  if target ∈ row then .ok row
  else if row.length < maximum then .ok (row++[target])
  else match replacement with
    | none => .error (.noReplacement owner)
    | some slot =>
      if row.length ≤ slot then .error (.replacementUnavailable slot) else .ok (row.set slot target)

def setOrAppendNeighbor (graph : OwnedGraph) (owner target maximum : ℕ) (replacement : Option ℕ) :
    Repair OwnedGraph := do
  let nodeCount ← graph.nodeCount
  let row ← graph.checkedRow nodeCount owner
  let changed ← rowWithTarget owner target maximum replacement row
  return graph.setRow owner changed

def rowWithSource (source maximum : ℕ) (row : List ℕ) : Repair (List ℕ) :=
  if source ∈ row then .ok row
  else if row.length < maximum then .ok (row++[source])
  else if row.length ≤ row.length-1 then .error .fullTarget
  else .ok (row.set (row.length-1) source)

def stitchComponent (graph : OwnedGraph) (seen : List Bool) (target : ℕ) (rMax : U8) :
    Repair OwnedGraph := do
  let maximum:=rMax.toNat
  failIf (maximum = 0) .zeroDegree
  let (source,replacement) ← connectivitySource graph seen maximum
  let linked ← setOrAppendNeighbor graph source target maximum replacement
  let nodeCount ← linked.nodeCount
  let row ← linked.checkedRow nodeCount target
  let changed ← rowWithSource source maximum row
  let graph:=linked.setRow target changed
  let flags ← graph.flagsOf source
  return { graph with flags := graph.flags.set source (flags ||| hubFlag) }

def densifyWith (owner targetDegree : ℕ) (row : List ℕ) (candidate : ℕ) : List ℕ :=
  if targetDegree ≤ row.length then row
  else if candidate ≠ owner ∧ candidate ∉ row then row++[candidate]
  else row

def densifyHub (graph : OwnedGraph) (owner : ℕ) (rMax : U8) : Repair OwnedGraph := do
  let nodeCount ← graph.nodeCount
  let ownerIndex ← nodeIndex owner nodeCount
  let flags ← graph.flagsOf ownerIndex
  if flags &&& hubFlag = 0 then return graph
  else
    let targetDegree:=min rMax.toNat (graph.neighbors.length-1)
    let row ← graph.row ownerIndex
    let dense:=(List.range nodeCount).foldl (densifyWith owner targetDegree) row
    failIf (dense.length ≠ targetDegree) (.hubDegree owner dense.length targetDegree)
    return graph.setRow ownerIndex dense

/-- The queue is drained, then the first row that was not seen is stitched on. -/
def repairStep (nodeCount : ℕ) (rMax : U8) (state : OwnedGraph × Seen) :
    Repair (Flow (OwnedGraph × Seen)) := do
  let seen ← drainQueue state.1 nodeCount state.2
  match seen.marks.findIdx? (fun marker => marker = false) with
  | none => return .stop (state.1,seen)
  | some unseen =>
    let target ← rowNumber unseen
    let graph ← stitchComponent state.1 seen.marks target rMax
    let seen ← markAndEnqueueByte target seen
    return .next (graph,seen)

def connectivityRepair (graph : OwnedGraph) (rMax : U8) : Repair OwnedGraph := do
  failIf (graph.maxDegree ≠ rMax) (.profileDegree graph.maxDegree rMax)
  let nodeCount ← graph.nodeCount
  let root ← firstEntry graph
  let seen ← markAndEnqueueByte root ⟨List.replicate graph.neighbors.length false,[]⟩
  let (graph,_) ← tryLoop .unfinished (repairStep nodeCount rMax) (graph.neighbors.length+1)
    (graph,seen)
  (List.range nodeCount).foldlM (fun graph owner => densifyHub graph owner rMax) graph

structure ValidRow (rMax nodeCount owner : ℕ) (row : List ℕ) : Prop where
  degree : row.length ≤ rMax
  distinct : row.Nodup
  range : ∀ node ∈ row,node < nodeCount
  other : owner ∉ row

structure OwnedGraph.Valid (graph : OwnedGraph) (rMax : U8) : Prop where
  flagged : graph.flags.length = graph.neighbors.length
  counted : graph.neighbors.length ≤ u32Max
  rows : ∀ owner row,graph.neighbors[owner]? = some row →
    ValidRow rMax.toNat graph.neighbors.length owner row

def OwnedGraph.adjacent (graph : OwnedGraph) (owner : ℕ) : List ℕ := graph.neighbors.getD owner []

abbrev OwnedGraph.Reaches (graph : OwnedGraph) : ℕ → ℕ → Prop :=
  Relation.ReflTransGen fun a b => b ∈ graph.adjacent a

structure HubsAdded (before after : OwnedGraph) : Prop where
  degree : after.maxDegree = before.maxDegree
  count : after.neighbors.length = before.neighbors.length
  flags : ∀ row : ℕ,after.flags[row]? = before.flags[row]? ∨
    after.flags[row]? = before.flags[row]?.map (· ||| hubFlag)

section Graph
variable {graph : OwnedGraph} {rMax : U8}

variable {owner : ℕ}

theorem adjacent_eq {row : List ℕ} (h : graph.neighbors[owner]? = some row) :
    graph.adjacent owner = row := by
  rw [OwnedGraph.adjacent,getD_eq_getElem?_getD,h]
  rfl

theorem getElem?_adjacent (h : owner < graph.neighbors.length) :
    graph.neighbors[owner]? = some (graph.adjacent owner) := by
  rw [getElem?_eq_getElem h,adjacent_eq (getElem?_eq_getElem h)]

theorem OwnedGraph.Valid.row (h : graph.Valid rMax) (owner : ℕ) :
    ValidRow rMax.toNat graph.neighbors.length owner (graph.adjacent owner) := by
  rw [OwnedGraph.adjacent,getD_eq_getElem?_getD]
  cases hrow : graph.neighbors[owner]? with
  | none => exact ⟨Nat.zero_le _,nodup_nil,nofun,not_mem_nil⟩
  | some row => exact h.rows owner row hrow

theorem nodeCount_eq (h : graph.Valid rMax) : graph.nodeCount = .ok graph.neighbors.length :=
  if_pos h.counted

theorem nodeIndex_eq {node nodeCount : ℕ} (h : node < nodeCount) :
    nodeIndex node nodeCount = .ok node :=
  if_neg (by omega)

theorem rowNumber_eq (h : graph.Valid rMax) {row : ℕ} (hrow : row < graph.neighbors.length) :
    rowNumber row = .ok row := by
  have hcounted:=h.counted
  exact if_pos (by omega)

theorem row_eq (h : owner < graph.neighbors.length) :
    graph.row owner = .ok (graph.adjacent owner) := by
  rw [OwnedGraph.row,getElem?_adjacent h]

theorem checkedRow_eq (h : owner < graph.neighbors.length) :
    graph.checkedRow graph.neighbors.length owner = .ok (graph.adjacent owner) := by
  rw [OwnedGraph.checkedRow,nodeIndex_eq h,ok_bind,row_eq h]

theorem flagsOf_eq (h : owner < graph.flags.length) :
    graph.flagsOf owner = .ok graph.flags[owner] := by
  rw [OwnedGraph.flagsOf,getElem?_eq_getElem h]

theorem setRow_adjacent (graph : OwnedGraph) (row : List ℕ)
    (h : owner < graph.neighbors.length) : (graph.setRow owner row).adjacent owner = row :=
  adjacent_eq (getElem?_set_self h)

theorem setRow_adjacent_ne (graph : OwnedGraph) {other : ℕ} (row : List ℕ)
    (h : owner ≠ other) : (graph.setRow owner row).adjacent other = graph.adjacent other := by
  rw [OwnedGraph.adjacent,OwnedGraph.adjacent,getD_eq_getElem?_getD,
    getD_eq_getElem?_getD,OwnedGraph.setRow,getElem?_set_ne h]

@[simp] theorem setRow_length (graph : OwnedGraph) (owner : ℕ) (row : List ℕ) :
    (graph.setRow owner row).neighbors.length = graph.neighbors.length :=
  length_set ..

theorem OwnedGraph.Valid.setRow (h : graph.Valid rMax) {row : List ℕ}
    (hrow : ValidRow rMax.toNat graph.neighbors.length owner row) :
    (graph.setRow owner row).Valid rMax := by
  refine ⟨?_,?_,?_⟩
  · rw [setRow_length]
    exact h.flagged
  · rw [setRow_length]
    exact h.counted
  · intro other changed hchanged
    rw [setRow_length]
    by_cases heq : owner = other
    · subst heq
      have hlt:=(List.getElem?_eq_some_iff.mp hchanged).1
      rw [setRow_length] at hlt
      rw [← adjacent_eq hchanged,setRow_adjacent graph row hlt]
      exact hrow
    · rw [OwnedGraph.setRow,getElem?_set_ne heq] at hchanged
      exact h.rows other changed hchanged

theorem HubsAdded.refl (graph : OwnedGraph) : HubsAdded graph graph :=
  ⟨rfl,rfl,fun _ => .inl rfl⟩

theorem HubsAdded.trans {a b c : OwnedGraph} (h : HubsAdded a b) (h' : HubsAdded b c) :
    HubsAdded a c where
  degree := h'.degree.trans h.degree
  count := h'.count.trans h.count
  flags := by
    intro row
    have htwice : ∀ flags : U8,flags ||| hubFlag ||| hubFlag = flags ||| hubFlag := by
      intro flags
      rw [BitVec.or_assoc,BitVec.or_self]
    rcases h.flags row with hab | hab
    · rw [← hab]
      exact h'.flags row
    · right
      rcases h'.flags row with hbc | hbc
      · exact hbc.trans hab
      · rw [hbc,hab,Option.map_map]
        congr 1
        exact funext htwice

theorem HubsAdded.firstEntry_eq {before after : OwnedGraph} (h : HubsAdded before after) :
    firstEntry after = firstEntry before := by
  have hentry : ∀ flags : U8,(flags ||| hubFlag) &&& entryFlag = flags &&& entryFlag := by
    decide
  have hmap : after.flags.map (fun flags => decide (flags &&& entryFlag ≠ 0)) =
      before.flags.map (fun flags => decide (flags &&& entryFlag ≠ 0)) := by
    apply ext_getElem?
    intro row
    rw [getElem?_map,getElem?_map]
    rcases h.flags row with hrow | hrow
    · rw [hrow]
    · rw [hrow,Option.map_map]
      congr 1
      funext flags
      simp only [Function.comp_apply,hentry]
  have hindex:=congrArg (List.findIdx? id) hmap
  rw [findIdx?_map,findIdx?_map,Function.id_comp] at hindex
  rw [firstEntry,firstEntry,hindex]

theorem firstEntry_ok (h : graph.Valid rMax)
    (hentry : ∃ flags ∈ graph.flags,flags &&& entryFlag ≠ 0) :
    ∃ root < graph.neighbors.length,firstEntry graph = .ok root := by
  obtain ⟨flags,hflags,hne⟩ := hentry
  cases hfound : graph.flags.findIdx? (fun flags => flags &&& entryFlag ≠ 0) with
  | none =>
    have hnone:=findIdx?_eq_none_iff.mp hfound flags hflags
    exact absurd hne (by simpa using hnone)
  | some root =>
    obtain ⟨hlt,-⟩ := findIdx?_eq_some_iff_getElem.mp hfound
    rw [h.flagged] at hlt
    refine ⟨root,hlt,?_⟩
    rw [firstEntry,hfound]
    exact rowNumber_eq h hlt

structure Drained (graph : OwnedGraph) (marks : List Bool) (root : ℕ) : Prop where
  length : marks.length = graph.neighbors.length
  begun : marks[root]? = some true
  closed : ∀ a,marks[a]? = some true → ∀ b ∈ graph.adjacent a,marks[b]? = some true
  led : ∀ a,marks[a]? = some true → graph.Reaches root a

section Drained
variable {marks : List Bool} {root : ℕ} {node : ℕ} {marker : Bool × ℕ}

theorem marked_iff : Flood.Marked false marks node ↔ marks[node]? = some true := by
  constructor
  · intro h
    obtain ⟨mark,hmark,hne⟩ := h
    rw [hmark,Bool.eq_true_of_not_eq_false hne]
  · intro h
    exact ⟨true,h,nofun⟩

theorem lt_of_seen (h : marks[node]? = some true) : node < marks.length :=
  (List.getElem?_eq_some_iff.mp h).1

structure SearchTree (graph : OwnedGraph) (marks : List Bool) (root : ℕ) (parents : List ℕ) :
    Prop where
  origin : parents[root]? = some root
  led : ∀ a,marks[a]? = some true →
    Relation.ReflTransGen (fun p i => i ∈ graph.adjacent p ∧ parents[i]? = some p) root a

theorem treeParents_spec (h : graph.Valid rMax) (hdrained : Drained graph marks root) :
    ∃ parents,treeParents graph marks graph.neighbors.length root = .ok parents ∧
      SearchTree graph marks root parents := by
  have hroot : root < graph.neighbors.length := by
    rw [← hdrained.length]
    exact lt_of_seen hdrained.begun
  have hcounted:=h.counted
  have hlength : ((List.replicate graph.neighbors.length u32Max).set root root).length =
      graph.neighbors.length := by
    rw [length_set,length_replicate]
  have hset : ((List.replicate graph.neighbors.length u32Max).set root root)[root]? = some root :=
    getElem?_set_self (by rw [length_replicate]; exact hroot)
  have honly : ∀ node,Flood.Marked u32Max
      ((List.replicate graph.neighbors.length u32Max).set root root) node → node = root := by
    intro node hnode
    rcases Flood.marked_set hnode with rfl | ⟨mark,hmark,hne⟩
    · rfl
    · have hmem:=mem_of_getElem? hmark
      exact absurd (eq_of_mem_replicate hmem) hne
  have hmarked : Flood.Marked u32Max
      ((List.replicate graph.neighbors.length u32Max).set root root) root :=
    ⟨root,hset,by omega⟩
  have hflood : ∃ tree,Flood.flood u32Max (fun node => marks[node]? = some true)
      (fun node => RepairError.outsideRows node graph.neighbors.length) .unfinished
      (graph.checkedRow graph.neighbors.length) id
      ⟨(List.replicate graph.neighbors.length u32Max).set root root,[root]⟩ = .ok tree ∧
      tree.queue = [] ∧ Flood.Flooded u32Max (fun node => marks[node]? = some true) graph.adjacent id
        ((List.replicate graph.neighbors.length u32Max).set root root) tree.marks := by
    apply Flood.flood_spec
    · rw [hlength]
      exact fun owner howner => checkedRow_eq howner
    · rw [hlength]
      exact fun owner _ => (h.row owner).range
    · rw [hlength]
      intro owner howner heq
      have hmax : owner = u32Max := heq
      omega
    · intro node hnode
      rw [mem_singleton.mp hnode]
      exact hmarked
    · intro a ha hnot
      rw [honly a ha] at hnot
      exact absurd (mem_singleton_self root) hnot
  obtain ⟨tree,htree,-,hflooded⟩ := hflood
  refine ⟨tree.marks,?_,?_,?_⟩
  · rw [treeParents,nodeIndex_eq hroot,ok_bind,failIf_neg _ (by omega),ok_bind]
    exact congrArg (fun result => result >>= fun tree => Except.ok tree.marks) htree
  · rw [hflooded.kept root hmarked]
    exact hset
  · intro a ha
    have hall : Flood.Marked u32Max tree.marks a := by
      have hreaches:=hdrained.led a ha
      have hboth : marks[a]? = some true ∧ Flood.Marked u32Max tree.marks a := by
        clear ha
        induction hreaches with
        | refl =>
          refine ⟨hdrained.begun,root,?_,by omega⟩
          rw [hflooded.kept root hmarked]
          exact hset
        | tail _ hedge ih =>
          have hseen:=hdrained.closed _ ih.1 _ hedge
          exact ⟨hseen,hflooded.closed _ ih.2 _ hedge hseen⟩
      exact hboth.2
    obtain ⟨start,hstart,hpath⟩ := hflooded.led a hall
    rw [honly start hstart] at hpath
    have hedges : ∀ p i,Flood.Parent u32Max (fun node => marks[node]? = some true) graph.adjacent id
        tree.marks p i → i ∈ graph.adjacent p ∧ tree.marks[i]? = some p := by
      intro p i hparent
      exact ⟨hparent.1,hparent.2.2.1⟩
    exact Relation.ReflTransGen.mono hedges root a hpath

theorem exists_spare (h : graph.Valid rMax) (hdrained : Drained graph marks root)
    {parents : List ℕ} (hroot : parents[root]? = some root)
    (hfull : ∀ a,marks[a]? = some true → graph.adjacent a ≠ []) :
    ∃ owner,marks[owner]? = some true ∧ ∃ node ∈ graph.adjacent owner,
      parents[node]? ≠ some owner := by
  by_contra hall
  have hnone : ∀ owner,marks[owner]? = some true → ∀ node ∈ graph.adjacent owner,
      parents[node]? = some owner := by
    intro owner howner node hnode
    by_contra hparent
    exact hall ⟨owner,howner,node,hnode,hparent⟩
  let seen:=(Finset.range marks.length).filter fun node => marks[node]? = some true
  have hmem : ∀ node,node ∈ seen ↔ marks[node]? = some true := by
    intro node
    rw [Finset.mem_filter,Finset.mem_range]
    exact ⟨fun hnode => hnode.2,fun hnode => ⟨lt_of_seen hnode,hnode⟩⟩
  let next:=fun owner => (graph.adjacent owner).headD 0
  have hnext : ∀ owner,marks[owner]? = some true → next owner ∈ graph.adjacent owner := by
    intro owner howner
    have hne:=hfull owner howner
    cases hrow : graph.adjacent owner with
    | nil => exact absurd hrow hne
    | cons node rest =>
      simp only [next,hrow,headD_cons,mem_cons_self]
  -- the first edges of the rows lead to different rows, and none of them to the root
  have hmaps : ∀ owner ∈ seen,next owner ∈ seen.erase root := by
    intro owner howner
    have hseen:=(hmem owner).mp howner
    have hedge:=hnext owner hseen
    refine Finset.mem_erase.mpr ⟨?_,(hmem _).mpr (hdrained.closed owner hseen _ hedge)⟩
    intro heq
    have hparent:=hnone owner hseen _ hedge
    rw [heq,hroot] at hparent
    rw [heq,Option.some.inj hparent] at hedge
    exact (h.row owner).other hedge
  have hcard : (seen.erase root).card < seen.card :=
    Finset.card_erase_lt_of_mem ((hmem root).mpr hdrained.begun)
  obtain ⟨a,ha,b,hb,hne,heq⟩ := Finset.exists_ne_map_eq_of_card_lt_of_maps_to hcard hmaps
  have ha':=(hmem a).mp ha
  have hb':=(hmem b).mp hb
  have hpa:=hnone a ha' _ (hnext a ha')
  have hpb:=hnone b hb' _ (hnext b hb')
  rw [heq,hpb] at hpa
  exact hne (Option.some.inj hpa).symm

def Replaces (graph : OwnedGraph) (marks : List Bool) (root source : ℕ) (slot : ℕ) : Prop :=
  ∃ parents,SearchTree graph marks root parents ∧ ∃ node,
    (graph.adjacent source)[slot]? = some node ∧ parents[node]? ≠ some source

theorem spareSlot_eq (h : graph.Valid rMax) (parents : List ℕ) {owner : ℕ} {edge : ℕ × ℕ}
    (hedge : edge.1 ∈ graph.adjacent owner) :
    spareSlot graph.neighbors.length parents owner edge =
      .ok (if parents[edge.1]? ≠ some owner then some (owner,edge.2) else none) := by
  rw [spareSlot,nodeIndex_eq ((h.row owner).range _ hedge),ok_bind]
  rfl

theorem spareEdge_spec (h : graph.Valid rMax) (hlength : marks.length = graph.neighbors.length)
    (parents : List ℕ) (hmarker : marker ∈ marks.zipIdx) :
    ∃ found,spareEdge graph graph.neighbors.length parents marker = .ok found ∧
      (∀ edge,found = some edge → marks[edge.1]? = some true ∧ ∃ node,
        (graph.adjacent edge.1)[edge.2]? = some node ∧ parents[node]? ≠ some edge.1) ∧
      (found = none → marker.1 = true → ∀ node ∈ graph.adjacent marker.2,
        parents[node]? = some marker.2) := by
  obtain ⟨seen,owner⟩ := marker
  have hseen : marks[owner]? = some seen := mem_zipIdx_iff_getElem?.mp hmarker
  have hlt : owner < graph.neighbors.length := by
    rw [← hlength]
    exact (List.getElem?_eq_some_iff.mp hseen).1
  unfold spareEdge
  cases seen with
  | false => exact ⟨none,rfl,nofun,nofun⟩
  | true =>
    rw [if_neg nofun]
    dsimp only
    rw [rowNumber_eq h hlt,ok_bind,row_eq hlt,ok_bind]
    have hslots : ∀ edge ∈ (graph.adjacent owner).zipIdx.reverse,
        (graph.adjacent owner)[edge.2]? = some edge.1 := by
      intro edge hedge
      exact mem_zipIdx_iff_getElem?.mp (mem_reverse.mp hedge)
    have hprobes : ∀ edge ∈ (graph.adjacent owner).zipIdx.reverse,∃ found,
        spareSlot graph.neighbors.length parents owner edge = .ok found :=
      fun edge hedge => ⟨_,spareSlot_eq h parents (mem_of_getElem? (hslots edge hedge))⟩
    obtain ⟨found,hfound,hsome,hnone⟩ := findSomeM?_ok hprobes
    refine ⟨found,hfound,?_,?_⟩
    · intro edge hedge
      obtain ⟨entry,hentry,hprobe⟩ := hsome edge hedge
      have hslot:=hslots entry hentry
      rw [spareSlot_eq h parents (mem_of_getElem? hslot)] at hprobe
      have hvalue:=Except.ok.inj hprobe
      split_ifs at hvalue with hparent
      obtain rfl := Option.some.inj hvalue
      exact ⟨hseen,entry.1,hslot,hparent⟩
    · intro hall _ node hnode
      obtain ⟨slot,hslot⟩ := mem_iff_getElem?.mp hnode
      have hentry : (node,slot) ∈ (graph.adjacent owner).zipIdx.reverse :=
        mem_reverse.mpr (mem_zipIdx_iff_getElem?.mpr hslot)
      have hprobe:=hnone hall _ hentry
      rw [spareSlot_eq h parents hnode] at hprobe
      have hvalue:=Except.ok.inj hprobe
      split_ifs at hvalue with hparent
      exact not_not.mp hparent

theorem replaceableNonTreeEdge_spec (h : graph.Valid rMax) (hdrained : Drained graph marks root)
    (hroot : firstEntry graph = .ok root)
    (hfull : ∀ a,marks[a]? = some true → graph.adjacent a ≠ []) :
    ∃ source slot,replaceableNonTreeEdge graph marks = .ok (source,slot) ∧
      marks[source]? = some true ∧ Replaces graph marks root source slot := by
  obtain ⟨parents,hparents,htree⟩ := treeParents_spec h hdrained
  have hprobes : ∀ marker ∈ marks.zipIdx,∃ found,
      spareEdge graph graph.neighbors.length parents marker = .ok found := by
    intro marker hmarker
    obtain ⟨found,hfound,-⟩ := spareEdge_spec h hdrained.length parents hmarker
    exact ⟨found,hfound⟩
  obtain ⟨found,hfound,hsome,hnone⟩ := findSomeM?_ok hprobes
  unfold replaceableNonTreeEdge
  rw [nodeCount_eq h,ok_bind,hroot,ok_bind,hparents,ok_bind,hfound,ok_bind]
  cases found with
  | none =>
    obtain ⟨owner,howner,node,hnode,hparent⟩ := exists_spare h hdrained htree.origin hfull
    have hmarker : (true,owner) ∈ marks.zipIdx := mem_zipIdx_iff_getElem?.mpr howner
    obtain ⟨probe,hprobe,-,hall⟩ := spareEdge_spec h hdrained.length parents hmarker
    have hprobe':=hnone rfl _ hmarker
    rw [hprobe] at hprobe'
    exact absurd (hall (Except.ok.inj hprobe') rfl node hnode) hparent
  | some edge =>
    obtain ⟨marker,hmarker,hprobe⟩ := hsome edge rfl
    obtain ⟨probe,hprobe',hedge,-⟩ := spareEdge_spec h hdrained.length parents hmarker
    rw [hprobe'] at hprobe
    obtain ⟨hseen,node,hnode,hspare⟩ := hedge edge (Except.ok.inj hprobe)
    exact ⟨edge.1,edge.2,rfl,hseen,parents,htree,node,hnode,hspare⟩

theorem roomyRow_spec (h : graph.Valid rMax) (hlength : marks.length = graph.neighbors.length)
    (maximum : ℕ) (requiredFlag : U8) (hmarker : marker ∈ marks.zipIdx) :
    ∃ found,roomyRow graph maximum requiredFlag marker = .ok found ∧
      (∀ owner,found = some owner → marks[owner]? = some true ∧
        (graph.adjacent owner).length < maximum) ∧
      (found = none → requiredFlag = 0 → marker.1 = true →
        maximum ≤ (graph.adjacent marker.2).length) := by
  obtain ⟨seen,owner⟩ := marker
  have hseen : marks[owner]? = some seen := mem_zipIdx_iff_getElem?.mp hmarker
  have hlt : owner < graph.neighbors.length := by
    rw [← hlength]
    exact (List.getElem?_eq_some_iff.mp hseen).1
  unfold roomyRow
  dsimp only
  rw [flagsOf_eq (by rw [h.flagged]; exact hlt),ok_bind,row_eq hlt,ok_bind]
  split_ifs with hroom
  · rw [rowNumber_eq h hlt,ok_bind]
    refine ⟨some owner,rfl,?_,nofun⟩
    intro found hfound
    obtain rfl := Option.some.inj hfound
    rw [hroom.1] at hseen
    exact ⟨hseen,hroom.2.1⟩
  · refine ⟨none,rfl,nofun,?_⟩
    intro _ hflag hmark
    by_contra hless
    exact hroom ⟨hmark,by omega,.inl hflag⟩

theorem connectivitySource_spec (h : graph.Valid rMax) (hdrained : Drained graph marks root)
    (hroot : firstEntry graph = .ok root) {maximum : ℕ} (hpositive : 0 < maximum) :
    ∃ source replacement,connectivitySource graph marks maximum = .ok (source,replacement) ∧
      marks[source]? = some true ∧
      (replacement = none ∧ (graph.adjacent source).length < maximum ∨
        ∃ slot,replacement = some slot ∧ Replaces graph marks root source slot) := by
  have hprobes : ∀ requiredFlag : U8,∀ marker ∈ marks.zipIdx,∃ found,
      roomyRow graph maximum requiredFlag marker = .ok found := by
    intro requiredFlag marker hmarker
    obtain ⟨found,hfound,-⟩ := roomyRow_spec h hdrained.length maximum requiredFlag hmarker
    exact ⟨found,hfound⟩
  have hsearches : ∀ requiredFlag ∈ [hubFlag,entryFlag,0],∃ found,
      marks.zipIdx.findSomeM? (roomyRow graph maximum requiredFlag) = .ok found := by
    intro requiredFlag _
    obtain ⟨found,hfound,-⟩ := findSomeM?_ok (hprobes requiredFlag)
    exact ⟨found,hfound⟩
  obtain ⟨roomy,hroomy,hsome,hnone⟩ := findSomeM?_ok hsearches
  unfold connectivitySource
  rw [hroomy,ok_bind]
  cases roomy with
  | some owner =>
    obtain ⟨requiredFlag,-,hsearch⟩ := hsome owner rfl
    obtain ⟨found,hfound,hmarker,-⟩ := findSomeM?_ok (hprobes requiredFlag)
    rw [hfound] at hsearch
    obtain ⟨marker,hmem,hprobe⟩ := hmarker owner (Except.ok.inj hsearch)
    obtain ⟨probe,hprobe',hroom,-⟩ := roomyRow_spec h hdrained.length maximum requiredFlag hmem
    rw [hprobe'] at hprobe
    obtain ⟨hseen,hless⟩ := hroom owner (Except.ok.inj hprobe)
    exact ⟨owner,none,rfl,hseen,.inl ⟨rfl,hless⟩⟩
  | none =>
    have hfull : ∀ a,marks[a]? = some true → graph.adjacent a ≠ [] := by
      intro a ha hnil
      have hsearch:=hnone rfl 0 (by simp)
      obtain ⟨found,hfound,-,hall⟩ := findSomeM?_ok (hprobes 0)
      rw [hfound] at hsearch
      have hmem : (true,a) ∈ marks.zipIdx := mem_zipIdx_iff_getElem?.mpr ha
      have hprobe:=hall (Except.ok.inj hsearch) _ hmem
      obtain ⟨probe,hprobe',-,hless⟩ := roomyRow_spec h hdrained.length maximum 0 hmem
      rw [hprobe'] at hprobe
      have hmaximum:=hless (Except.ok.inj hprobe) rfl rfl
      dsimp only at hmaximum
      rw [hnil,length_nil] at hmaximum
      omega
    obtain ⟨source,slot,hedge,hseen,hreplaces⟩ := replaceableNonTreeEdge_spec h hdrained hroot
      hfull
    refine ⟨source,some slot,?_,hseen,.inr ⟨slot,rfl,hreplaces⟩⟩
    dsimp only
    rw [hedge]
    rfl

end Drained

end Graph

end Zeppelin.VectorGraph
