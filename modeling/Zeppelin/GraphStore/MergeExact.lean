import Mathlib.Data.List.Induction
import Zeppelin.GraphStore.MergeKernel
import Zeppelin.GraphStore.RewriteLimit
import Zeppelin.GraphStore.WalkExact

namespace Zeppelin.GraphStore.Adjacency
open List

def outcome (entry : DeltaEntry) : Option ℕ :=
  match entry.action with
  | .insert => some entry.edge.neighbor
  | .delete => none

def observe (state : ℕ → Option ℕ) (entry : DeltaEntry) : ℕ → Option ℕ :=
  Function.update state entry.edge.rel (outcome entry)

def lastWriterWins (runs : List Run) : ℕ → Option ℕ :=
  runs.foldl (fun state run => run.entries.foldl observe state) fun _ => none

theorem foldl_observe {entries : List DeltaEntry} (h : Ascending entries) (state : ℕ → Option ℕ)
    (rel : ℕ) :
    entries.foldl observe state rel = (entryAt rel entries).elim (state rel) outcome := by
  induction entries generalizing state with
  | nil => rfl
  | cons head tail ih =>
    rw [foldl_cons,ih h.tail,entryAt_cons,observe]
    by_cases hat : head.edge.rel = rel
    · have hnone : entryAt rel tail = none := by
        apply entryAt_eq_none.mpr
        intro entry hentry
        rw [← hat]
        exact (h.head_lt entry hentry).ne'
      rw [if_pos hat,hnone,hat]
      simp
    · rw [if_neg hat,Function.update_of_ne (Ne.symm hat)]

theorem foldl_runs {runs : List Run} (h : ∀ run ∈ runs,Ascending run.entries)
    (state : ℕ → Option ℕ) (rel : ℕ) :
    runs.foldl (fun state run => run.entries.foldl observe state) state rel =
      (latest rel (runEntries runs)).elim (state rel) outcome := by
  induction runs generalizing state with
  | nil => rfl
  | cons run runs ih =>
    rw [foldl_cons,ih (fun r hr => h r (mem_cons_of_mem _ hr)),
      foldl_observe (h run (mem_cons_self ..))]
    change _ = (latest rel (run.entries::runEntries runs)).elim (state rel) outcome
    rw [latest]
    cases latest rel (runEntries runs) with
    | none => rfl
    | some entry => rfl

structure Survivors (runs : List Run) (edges : List Edge) : Prop where
  ascending : AscendingEdges edges
  exact_edges : ∀ edge,edge ∈ edges ↔ lastWriterWins runs edge.rel = some edge.neighbor

theorem lastWriterWins_iff {runs : List Run} (h : ∀ run ∈ runs,Ascending run.entries)
    {edge : Edge} : lastWriterWins runs edge.rel = some edge.neighbor ↔
      latest edge.rel (runEntries runs) = some ⟨edge,.insert⟩ := by
  rw [lastWriterWins,foldl_runs h]
  cases hlatest : latest edge.rel (runEntries runs) with
  | none => simp
  | some entry =>
    obtain ⟨⟨rel,neighbor⟩,action⟩ := entry
    have hrel : rel = edge.rel := latest_rel hlatest
    obtain ⟨rel',neighbor'⟩ := edge
    cases action with
    | insert => simp [outcome,hrel]
    | delete => simp [outcome]

variable {edges : List Edge}

theorem walk_survivors {runs : List Run}
    (h : ∀ run ∈ runs,Ascending run.entries) (hwalk : walk runs = .ok edges) :
    Survivors runs edges := by
  obtain ⟨hascending,hmem⟩ := walk_ok h hwalk
  exact ⟨hascending,fun edge => (hmem edge).trans (lastWriterWins_iff h).symm⟩

theorem Survivors.unique {runs : List Run} {a b : List Edge} (ha : Survivors runs a)
    (hb : Survivors runs b) : a = b :=
  ha.ascending.ext hb.ascending fun edge => (ha.exact_edges edge).trans (hb.exact_edges edge).symm

theorem length_emitted (last : Option Seen) : (emitted last).length ≤ 1 := by
  cases last with
  | none => exact Nat.zero_le _
  | some winner =>
    rw [emitted]
    split_ifs
    · exact Nat.le_refl _
    · exact Nat.zero_le _

theorem walkFrom_length {fuel : ℕ} {cursors : List Cursor}
    (h : walkFrom fuel cursors = .ok edges) : edges.length ≤ fuel := by
  induction fuel generalizing cursors edges with
  | zero =>
    cases h
    exact Nat.le_refl _
  | succ fuel ih =>
    rw [walkFrom] at h
    cases hmin : minRel cursors with
    | none =>
      rw [hmin] at h
      cases h
      exact Nat.zero_le _
    | some rel =>
      simp only [hmin] at h
      obtain ⟨⟨last,moved⟩,-,h⟩ := bind_eq_ok h
      obtain ⟨rest,hrest,hret⟩ := bind_eq_ok h
      cases hret
      have hemitted:=length_emitted last
      have hmore:=ih hrest
      dsimp only at hmore ⊢
      rw [length_append]
      omega

theorem walk_length {run : Run} {runs : List Run} (h : walk (run::runs) = .ok edges) :
    edges.length ≤ run.entries.length+sumEntries runs := by
  have hlength:=walkFrom_length h
  rw [entryCount,map_map,map_cons,sum_cons] at hlength
  exact hlength

theorem foldl_countEdge (edges : List Edge) :
    edges.foldl countEdge (0,none) =
      (edges.length,(edges[maxBaseEntries]?).map Edge.rel) := by
  induction edges using List.reverseRecOn with
  | nil => rfl
  | append_singleton edges edge ih =>
    rw [foldl_append,ih,foldl_cons,foldl_nil,countEdge,length_append,
      length_singleton]
    dsimp only
    by_cases hat : edges.length = maxBaseEntries
    · rw [if_pos hat,← hat,getElem?_concat_length]
      rfl
    · rw [if_neg hat]
      rcases Nat.lt_or_gt_of_ne hat with hlt | hgt
      · rw [getElem?_eq_none (by omega),getElem?_eq_none (by simp; omega)]
      · rw [getElem?_append_left hgt]

theorem copyEdges_eq {capacity : ℕ} {written : List Edge}
    (h : written.length+edges.length ≤ capacity) :
    copyEdges capacity written edges = .ok (written++edges) := by
  induction edges generalizing written with
  | nil => rw [copyEdges,append_nil]
  | cons edge edges ih =>
    rw [length_cons] at h
    rw [copyEdges,if_neg (by omega),ih (by simp; omega),append_assoc,
      singleton_append]

theorem decodeDeltas_iff {key : RangeKey} {watermark cutoff previous pending : ℕ}
    {blocks : List Bytes} {runs found : List Run}
    (h : List.Forall₂ (fun bytes run => decodeBlock key true bytes = .ok run) blocks runs) :
    decodeDeltas key watermark cutoff previous pending blocks = .ok found ↔
      found = runs ∧ checkRuns key watermark cutoff previous pending runs = .ok () := by
  induction h generalizing previous pending found with
  | nil => simp [decodeDeltas,checkRuns,eq_comm]
  | @cons bytes run blocks runs hrun _ ih =>
    have hfits:=decode_eq_ok.mpr (decodeBlock_fits hrun)
    rw [decodeDeltas,hrun,ok_bind,checkRuns,hfits,ok_bind]
    by_cases hsequence : run.sequence ≤ watermark ∨ cutoff < run.sequence ∨ run.sequence < previous
    · simp [failIf,hsequence]
    · by_cases hpending : pending+run.entries.length > maxPendingEntries
      · have hfail : ∀ {ε : Type} (e : ε),
            failIf (pending+run.entries.length > maxPendingEntries) e = .error e :=
          fun e => if_pos hpending
        rw [failIf_neg _ hsequence,failIf_neg _ hsequence,ok_bind,ok_bind,hfail,hfail]
        simp
      · simp only [failIf_neg _ hsequence,failIf_neg _ hpending,ok_bind]
        constructor
        · intro hfound
          obtain ⟨rest,hrest,hret⟩ := bind_eq_ok hfound
          obtain ⟨hrest,hcheck⟩ := ih.mp hrest
          cases hret
          exact ⟨by rw [hrest],hcheck⟩
        · intro hboth
          obtain ⟨hfound,hcheck⟩ := hboth
          rw [ih.mpr ⟨rfl,hcheck⟩,hfound]
          rfl

structure Admissible (watermark cutoff : ℕ) (base : Run) (deltas : List Run) : Prop where
  cutoff_le : watermark ≤ cutoff
  base_sequence : base.sequence = watermark
  window : ∀ run ∈ deltas,watermark < run.sequence ∧ run.sequence ≤ cutoff
  rising : deltas.Pairwise fun r s => r.sequence ≤ s.sequence

theorem admissible_chain {watermark : ℕ} {runs : List Run}
    (hwindow : ∀ run ∈ runs,watermark < run.sequence) :
    (watermark::runs.map Run.sequence).IsChain (· ≤ ·) ↔
      runs.Pairwise fun r s => r.sequence ≤ s.sequence := by
  rw [isChain_iff_pairwise,pairwise_cons,pairwise_map]
  constructor
  · exact And.right
  · intro hrising
    refine ⟨fun sequence hsequence => ?_,hrising⟩
    obtain ⟨run,hrun,rfl⟩ := mem_map.mp hsequence
    exact (hwindow run hrun).le

theorem Admissible.runs_rising {watermark cutoff : ℕ} {base : Run} {deltas : List Run}
    (h : Admissible watermark cutoff base deltas) :
    (base::deltas).Pairwise fun r s => r.sequence ≤ s.sequence := by
  refine pairwise_cons.mpr ⟨fun run hrun => ?_,h.rising⟩
  rw [h.base_sequence]
  exact (h.window run hrun).1.le

theorem decoded_fits {key : RangeKey} {deltas : List Bytes} {runs : List Run}
    (h : List.Forall₂ (fun bytes run => decodeBlock key true bytes = .ok run) deltas runs) :
    ∀ run ∈ runs,run.Fits key true := by
  induction h with
  | nil => exact fun _ hrun => (nomatch hrun)
  | cons hrun _ ih => exact forall_mem_cons.mpr ⟨decodeBlock_fits hrun,ih⟩

section Blocks

variable {key : RangeKey} {watermark cutoff capacity : ℕ} {base : Bytes} {deltas : List Bytes}
  {run : Run} {runs : List Run}

theorem mergeBlocks_eq_ok (hbase : decodeBlock key false base = .ok run)
    (hdeltas : List.Forall₂ (fun bytes run => decodeBlock key true bytes = .ok run) deltas runs)
    (hcount : deltas.length ≤ maxDeltaRuns) {out : MergeOutput} :
    mergeBlocks key watermark cutoff base deltas capacity = .ok out ↔
      Admissible watermark cutoff run runs ∧ sumEntries runs ≤ maxPendingEntries ∧
        ∃ edges,walk (run::runs) = .ok edges ∧ edges.length ≤ capacity ∧
          out = ⟨edges,partitionsOf key edges.length ((edges[maxBaseEntries]?).map Edge.rel),
            cutoff⟩ := by
  have hinterval:=validRange_eq_ok.mpr (decodeBlock_fits hbase).interval
  have hfits:=decoded_fits hdeltas
  have hcheck:=@checkRuns_eq_ok key watermark cutoff watermark 0 runs (Nat.zero_le _)
  rw [Nat.zero_add] at hcheck
  constructor
  · intro h
    obtain ⟨⟨⟩,-,h⟩ := bind_eq_ok h
    obtain ⟨⟨⟩,hcutoff,h⟩ := bind_eq_ok h
    obtain ⟨⟨⟩,-,h⟩ := bind_eq_ok h
    obtain ⟨found,hfound,h⟩ := bind_eq_ok h
    obtain ⟨⟨⟩,hsequence,h⟩ := bind_eq_ok h
    obtain ⟨others,hothers,h⟩ := bind_eq_ok h
    obtain ⟨counted,hcounted,h⟩ := bind_eq_ok h
    obtain ⟨⟨⟩,hroom,h⟩ := bind_eq_ok h
    obtain ⟨edges,hedges,hret⟩ := bind_eq_ok h
    cases hret
    rw [hbase] at hfound
    cases hfound
    obtain ⟨rfl,hothers⟩ := (decodeDeltas_iff hdeltas).mp hothers
    have hwalk:=mapError_ok_iff.mp hcounted
    rw [foldl_countEdge,failIf_eq_ok] at hroom
    rw [failIf_eq_ok] at hcutoff hsequence
    rw [hwalk,ok_bind,copyEdges_eq (by simpa using hroom)] at hedges
    cases hedges
    obtain ⟨hall,hchain,hpending⟩ := hcheck.mp hothers
    have hwindow:=fun r hr => (hall r hr).2
    refine ⟨⟨by omega,not_not.mp hsequence,hwindow,
      (admissible_chain fun r hr => (hwindow r hr).1).mp hchain⟩,hpending,counted,hwalk,
      by simpa using hroom,?_⟩
    rw [foldl_countEdge,nil_append]
  · intro ⟨hadmissible,hpending,edges,hwalk,hroom,hout⟩
    have hwindow:=hadmissible.window
    have hchain:=(admissible_chain fun r hr => (hwindow r hr).1).mpr hadmissible.rising
    have hothers:=(@decodeDeltas_iff _ _ cutoff watermark 0 _ _ runs hdeltas).mpr
      ⟨rfl,hcheck.mpr ⟨fun r hr => ⟨hfits r hr,hwindow r hr⟩,hchain,hpending⟩⟩
    have hcutoff:=hadmissible.cutoff_le
    rw [mergeBlocks,mapError_ok_iff.mpr hinterval,ok_bind,failIf_neg _ (by omega),ok_bind,
      failIf_neg _ (by omega),ok_bind,hbase,ok_bind,
      failIf_neg _ (not_not.mpr hadmissible.base_sequence),ok_bind,hothers,ok_bind,
      mapError_ok_iff.mpr hwalk,ok_bind]
    dsimp only
    rw [foldl_countEdge,failIf_neg _ (by simpa using hroom),ok_bind,hwalk,ok_bind,
      copyEdges_eq (by simpa using hroom),nil_append,hout]
    rfl

theorem walk_holds (hrun : run.Fits key false) (hruns : ∀ r ∈ runs,r.Fits key true)
    {edges : List Edge} (hwalk : walk (run::runs) = .ok edges) :
    ∀ edge ∈ edges,key.holds edge.rel := by
  have hfits : ∀ r ∈ run::runs,Ascending r.entries ∧
      ∀ entry ∈ r.entries,key.holds entry.edge.rel :=
    forall_mem_cons.mpr ⟨⟨hrun.ascending,hrun.holds⟩,
      fun r hr => ⟨(hruns r hr).ascending,(hruns r hr).holds⟩⟩
  intro edge hedge
  have hlatest:=((walk_ok (fun r hr => (hfits r hr).1) hwalk).2 edge).mp hedge
  obtain ⟨entries,hentries,hmem⟩ := latest_mem hlatest
  obtain ⟨r,hr,rfl⟩ := mem_map.mp hentries
  exact (hfits r hr).2 _ hmem

end Blocks

/-- Partitions that cover the interval of a key piece by piece, with the edges from `start` on. -/
inductive Tiles (edges : List Edge) : RangeKey → ℕ → List Partition → Prop
  | last {key : RangeKey} {start : ℕ} (nonempty : start < edges.length)
      (size : edges.length ≤ start+maxBaseEntries)
      (holds : ∀ edge ∈ edges.drop start,key.holds edge.rel) :
      Tiles edges key start [⟨key,start,edges.length⟩]
  | more {key : RangeKey} {start stop cut : ℕ} {rest : List Partition} (nonempty : start < stop)
      (size : stop ≤ start+maxBaseEntries) (above : key.lower < cut)
      (below : key.upper.above cut = true)
      (holds : ∀ edge ∈ (edges.take stop).drop start,
        RangeKey.holds { key with upper := .exclusive cut } edge.rel)
      (tail : Tiles edges { key with lower := cut } stop rest) :
      Tiles edges key start (⟨{ key with upper := .exclusive cut },start,stop⟩::rest)

theorem partitionsOf_tiles {key : RangeKey} {edges : List Edge} (hne : edges ≠ [])
    (hascending : AscendingEdges edges) (hholds : ∀ edge ∈ edges,key.holds edge.rel)
    (hlength : edges.length ≤ maxMergedEntries) :
    Tiles edges key 0
      (partitionsOf key edges.length ((edges[maxBaseEntries]?).map Edge.rel)) := by
  have hpos:=length_pos_of_ne_nil hne
  rw [maxMergedEntries] at hlength
  cases hcut : edges[maxBaseEntries]? with
  | none =>
    have hfew:=List.getElem?_eq_none_iff.mp hcut
    rw [Option.map_none,partitionsOf,if_neg (by omega)]
    exact .last hpos (by omega) fun edge hedge => hholds edge (mem_of_mem_drop hedge)
  | some cut =>
    obtain ⟨hmany,hat⟩ := List.getElem?_eq_some_iff.mp hcut
    have hmem : cut ∈ edges := hat ▸ getElem_mem hmany
    -- the cut parts the ascending edges
    have hsplit : edges = edges.take maxBaseEntries++edges.drop maxBaseEntries :=
      (take_append_drop ..).symm
    have hdrop : edges.drop maxBaseEntries = cut::edges.drop (maxBaseEntries+1) := by
      rw [drop_eq_getElem_cons hmany,hat]
    rw [hsplit,hdrop,AscendingEdges,pairwise_append] at hascending
    obtain ⟨-,htail,hbefore⟩ := hascending
    have hlow : ∀ edge ∈ edges.take maxBaseEntries,edge.rel < cut.rel :=
      fun edge hedge => hbefore edge hedge cut (mem_cons_self ..)
    have hhigh : ∀ edge ∈ edges.drop maxBaseEntries,cut.rel ≤ edge.rel := by
      rw [hdrop]
      refine forall_mem_cons.mpr ⟨Nat.le_refl _,fun edge hedge => ?_⟩
      exact ((pairwise_cons.mp htail).1 edge hedge).le
    have hfirst : edges[0] ∈ edges.take maxBaseEntries := by
      apply mem_take_iff_getElem.mpr
      exact ⟨0,lt_min (by decide) hpos,rfl⟩
    rw [Option.map_some,partitionsOf]
    have hbounds : maxPendingEntries ≤ maxBaseEntries := by decide
    refine .more (by decide) (by omega) ?_ (hholds cut hmem).2 ?_ (.last hmany (by omega) ?_)
    · exact (hholds _ (getElem_mem hpos)).1.trans_lt (hlow _ hfirst)
    · intro edge hedge
      rw [drop_zero] at hedge
      exact ⟨(hholds edge (mem_of_mem_take hedge)).1,decide_eq_true (hlow edge hedge)⟩
    · intro edge hedge
      exact ⟨hhigh edge hedge,(hholds edge (mem_of_mem_drop hedge)).2⟩

/-- Blocks merge when their runs are admissible, agree and fit the bounds of a merge; the edges
are what the last writers leave, and any partitions tile the interval. -/
theorem mergeBlocks_exact {key : RangeKey} {watermark cutoff capacity : ℕ} {base : Bytes}
    {deltas : List Bytes} {run : Run} {runs : List Run}
    (hbase : decodeBlock key false base = .ok run)
    (hdeltas : List.Forall₂ (fun bytes run => decodeBlock key true bytes = .ok run) deltas runs)
    (hcount : deltas.length ≤ maxDeltaRuns) :
    ((∃ out,mergeBlocks key watermark cutoff base deltas capacity = .ok out) ↔
      Admissible watermark cutoff run runs ∧ OneNeighbor (run::runs) ∧
        OneAction (run::runs) ∧ sumEntries runs ≤ maxPendingEntries ∧
          ∀ edges,Survivors (run::runs) edges → edges.length ≤ capacity) ∧
      ∀ out,mergeBlocks key watermark cutoff base deltas capacity = .ok out →
        Survivors (run::runs) out.edges ∧ out.watermark = cutoff ∧
          (out.edges = [] → out.partitions = []) ∧
            (out.edges ≠ [] → Tiles out.edges key 0 out.partitions) := by
  have hrun:=decodeBlock_fits hbase
  have hruns:=decoded_fits hdeltas
  have hascending : ∀ r ∈ run::runs,Ascending r.entries :=
    forall_mem_cons.mpr ⟨hrun.ascending,fun r hr => (hruns r hr).ascending⟩
  constructor
  · constructor
    · intro ⟨out,hout⟩
      obtain ⟨hadmissible,hpending,edges,hwalk,hroom,-⟩ :=
        (mergeBlocks_eq_ok hbase hdeltas hcount).mp hout
      obtain ⟨hneighbor,haction⟩ :=
        (walk_exists hascending hadmissible.runs_rising).mp ⟨edges,hwalk⟩
      refine ⟨hadmissible,hneighbor,haction,hpending,fun other hother => ?_⟩
      rw [hother.unique (walk_survivors hascending hwalk)]
      exact hroom
    · intro ⟨hadmissible,hneighbor,haction,hpending,hroom⟩
      obtain ⟨edges,hwalk⟩ :=
        (walk_exists hascending hadmissible.runs_rising).mpr ⟨hneighbor,haction⟩
      have hfits:=hroom edges (walk_survivors hascending hwalk)
      exact ⟨_,(mergeBlocks_eq_ok hbase hdeltas hcount).mpr
        ⟨hadmissible,hpending,edges,hwalk,hfits,rfl⟩⟩
  · intro out hout
    obtain ⟨-,hpending,edges,hwalk,-,rfl⟩ :=
      (mergeBlocks_eq_ok hbase hdeltas hcount).mp hout
    have hsurvivors:=walk_survivors hascending hwalk
    refine ⟨hsurvivors,rfl,?_,fun hne => ?_⟩
    · intro hnone
      dsimp only at hnone ⊢
      rw [hnone]
      rfl
    · have hlength:=walk_length hwalk
      have hbaseCount:=hrun.count
      rw [maxEntries,if_neg Bool.false_ne_true] at hbaseCount
      have hmost : edges.length ≤ maxMergedEntries := by
        rw [maxMergedEntries]
        omega
      exact partitionsOf_tiles hne hsurvivors.ascending (walk_holds hrun hruns hwalk) hmost

def pairBase : Run := ⟨fanKey .out 1,1,false,inserts (fanEdges 2 2)⟩

def pairDelta : Run := ⟨fanKey .out 1,2,true,[⟨⟨2,2⟩,.delete⟩]⟩

theorem mergeBlocks_exact_at_delete :
    Survivors [pairBase,pairDelta] [⟨1,2⟩] ∧ Tiles [⟨1,2⟩] (fanKey .out 1) 0
      [⟨fanKey .out 1,0,1⟩] := by
  have hbase : decodeBlock (fanKey .out 1) false (blockBytes pairBase) = .ok pairBase := by
    decide +kernel
  have hdelta : decodeBlock (fanKey .out 1) true (blockBytes pairDelta) = .ok pairDelta := by
    decide +kernel
  have hout : mergeBlocks (fanKey .out 1) 1 2 (blockBytes pairBase) [blockBytes pairDelta] 1 =
      .ok ⟨[⟨1,2⟩],[⟨fanKey .out 1,0,1⟩],2⟩ := by
    decide +kernel
  have hmerge:=@mergeBlocks_exact _ 1 2 1 _ _ _ _ hbase (.cons hdelta .nil) (by decide)
  obtain ⟨hsurvivors,-,-,htiles⟩ := hmerge.2 _ hout
  exact ⟨hsurvivors,htiles (by simp)⟩

def fanDelta (sequence n : ℕ) : Run := ⟨fanKey .out 1,sequence,true,inserts (fanEdges 2 n)⟩

def emptyBase : Run := ⟨fanKey .out 1,0,false,[]⟩

theorem fanEdge_of_mem {sequence n : ℕ} {entry : DeltaEntry}
    (h : entry ∈ (fanDelta sequence n).entries) : entry.edge.rel < n+1 ∧
      entry.edge.neighbor = 2 ∧ entry.action = .insert := by
  obtain ⟨edge,hedge,rfl⟩ := mem_map.mp h
  refine ⟨fanEdges_lt edge hedge,?_,rfl⟩
  obtain ⟨i,-,rfl⟩ := mem_map.mp hedge
  rfl

theorem decodeBlock_fanDelta {sequence n : ℕ} (hsequence : sequence < 2^64)
    (hcount : n ≤ maxPendingEntries) :
    decodeBlock (fanKey .out 1) true (blockBytes (fanDelta sequence n)) =
      .ok (fanDelta sequence n) := by
  have hholdable:=fan_holdable .out 1 2 n
  have hbound : maxPendingEntries+1 < 2^128 := by decide
  apply decodeBlock_blockBytes
  · refine ⟨(by decide : 1 < 2^128),(by decide : 0 < 5 ∧ 5 < 2^64),
      (by decide : 0 < 1 ∧ 1 < 2^128),nofun,hsequence,fun entry hentry => ?_,nofun⟩
    obtain ⟨hrel,hneighbor,-⟩ := fanEdge_of_mem hentry
    rw [hneighbor]
    exact ⟨by omega,by decide⟩
  · refine ⟨rfl,rfl,hholdable.interval,?_,ascending_inserts.mpr hholdable.ascending,?_⟩
    · simpa [fanDelta,inserts,fanEdges_length,maxEntries] using hcount
    · intro entry hentry
      obtain ⟨edge,hedge,rfl⟩ := mem_map.mp hentry
      exact hholdable.holds edge hedge

theorem decodeBlock_emptyBase :
    decodeBlock (fanKey .out 1) false (blockBytes emptyBase) = .ok emptyBase := by
  decide +kernel

/-- Two agreeing runs of 1025 entries are refused, and an empty base has no partition. -/
theorem merge_refuses_agreeing_runs :
    (¬ ∀ (key : RangeKey) (watermark cutoff capacity : ℕ) (base : Bytes) (deltas : List Bytes)
      (run : Run) (runs : List Run),maxMergedEntries ≤ capacity →
        decodeBlock key false base = .ok run →
          List.Forall₂ (fun bytes run => decodeBlock key true bytes = .ok run) deltas runs →
            deltas.length ≤ maxDeltaRuns →
              ((∃ out,mergeBlocks key watermark cutoff base deltas capacity = .ok out) ↔
                Admissible watermark cutoff run runs ∧ OneNeighbor (run::runs) ∧
                  OneAction (run::runs))) ∧
      ¬ ∀ (key : RangeKey) (watermark cutoff capacity : ℕ) (base : Bytes) (deltas : List Bytes)
        (out : MergeOutput),mergeBlocks key watermark cutoff base deltas capacity = .ok out →
          Tiles out.edges key 0 out.partitions := by
  constructor
  · intro hall
    have hdeltas : List.Forall₂ (fun bytes run => decodeBlock (fanKey .out 1) true bytes = .ok run)
        [blockBytes (fanDelta 1 1025),blockBytes (fanDelta 2 1025)]
        [fanDelta 1 1025,fanDelta 2 1025] :=
      .cons (decodeBlock_fanDelta (by decide) (by decide))
        (.cons (decodeBlock_fanDelta (by decide) (by decide)) .nil)
    have hcount : [blockBytes (fanDelta 1 1025),blockBytes (fanDelta 2 1025)].length ≤
        maxDeltaRuns := (by decide : 2 ≤ maxDeltaRuns)
    have hcheck:=hall (fanKey .out 1) 0 2 maxMergedEntries (blockBytes emptyBase) _ emptyBase _
      (Nat.le_refl _) decodeBlock_emptyBase hdeltas hcount
    have hentries : ∀ r ∈ [emptyBase,fanDelta 1 1025,fanDelta 2 1025],∀ x ∈ r.entries,
        x.edge.neighbor = 2 ∧ x.action = .insert := by
      simp only [forall_mem_cons,not_mem_nil,false_implies,implies_true,and_true]
      exact ⟨fun x hx => (by cases hx),fun x hx => (fanEdge_of_mem hx).2,
        fun x hx => (fanEdge_of_mem hx).2⟩
    have hadmissible : Admissible 0 2 emptyBase [fanDelta 1 1025,fanDelta 2 1025] :=
      ⟨by decide,rfl,by simp [fanDelta],by simp [fanDelta]⟩
    obtain ⟨out,hout⟩ := hcheck.mpr ⟨hadmissible,
      fun r hr s hs x hx y hy _ =>
        (hentries r hr x hx).1.trans (hentries s hs y hy).1.symm,
      fun r hr s hs _ x hx y hy _ =>
        (hentries r hr x hx).2.trans (hentries s hs y hy).2.symm⟩
    obtain ⟨-,hpending,-⟩ :=
      (mergeBlocks_eq_ok decodeBlock_emptyBase hdeltas hcount).mp hout
    have hsum : sumEntries [fanDelta 1 1025,fanDelta 2 1025] = 2050 := by
      simp [sumEntries,fanDelta,inserts,fanEdges_length]
    rw [hsum] at hpending
    exact absurd hpending (by decide)
  · intro hall
    have hout : mergeBlocks (fanKey .out 1) 0 0 (blockBytes emptyBase) [] 0 =
        .ok ⟨[],[],0⟩ := by
      decide +kernel
    have htiles:=hall _ _ _ _ _ _ _ hout
    cases htiles

end Zeppelin.GraphStore.Adjacency
