import Mathlib.Data.Finset.Card
import Zeppelin.Machine.Run

namespace Zeppelin.Reachability
open Machine List

variable {α : Type}

abbrev Edges (α : Type) := List (α × α)

def Step (edges : Edges α) (a b : α) : Prop := (a,b) ∈ edges

abbrev Reaches (edges : Edges α) : α → α → Prop := Relation.ReflTransGen (Step edges)

theorem Reaches.mono {edges more : Edges α} (h : edges ⊆ more) {a b : α} (hab : Reaches edges a b) :
    Reaches more a b :=
  Relation.ReflTransGen.mono (p := Step more) (fun _ _ hstep => h hstep) a b hab

def Acyclic (edges : Edges α) : Prop := ∀ a,¬ Relation.TransGen (Step edges) a a

theorem Acyclic.mono {edges fewer : Edges α} (hacyclic : Acyclic edges) (h : fewer ⊆ edges) :
    Acyclic fewer :=
  fun a hcycle => hacyclic a
    (Relation.TransGen.mono (p := Step edges) (fun _ _ hstep => h hstep) a a hcycle)

theorem acyclic_nil : Acyclic ([] : Edges α) := by
  intro a hcycle
  obtain ⟨b,_,hlast⟩ := Relation.TransGen.tail'_iff.mp hcycle
  exact absurd hlast not_mem_nil

theorem transGen_cons {edges : Edges α} {source target a b : α}
    (h : Relation.TransGen (Step ((source,target)::edges)) a b) :
    Relation.TransGen (Step edges) a b ∨ Reaches edges a source ∧ Reaches edges target b := by
  have hstep : ∀ {a b : α},Step ((source,target)::edges) a b →
      (a = source ∧ b = target) ∨ Step edges a b := by
    intro a b h
    rcases mem_cons.mp h with h | h
    · exact .inl (Prod.mk.inj h)
    · exact .inr h
  induction h with
  | single h =>
    rcases hstep h with ⟨rfl,rfl⟩ | h
    · exact .inr ⟨.refl,.refl⟩
    · exact .inl (.single h)
  | tail _ h ih =>
    rcases hstep h with ⟨rfl,rfl⟩ | h
    · rcases ih with hold | ⟨hsource,_⟩
      · exact .inr ⟨hold.to_reflTransGen,.refl⟩
      · exact .inr ⟨hsource,.refl⟩
    · rcases ih with hold | ⟨hsource,htarget⟩
      · exact .inl (hold.tail h)
      · exact .inr ⟨hsource,htarget.tail h⟩

theorem acyclic_cons {edges : Edges α} {source target : α} (h : Acyclic edges) :
    Acyclic ((source,target)::edges) ↔ ¬ Reaches edges target source := by
  constructor
  · intro hacyclic hreaches
    apply hacyclic source
    exact Relation.TransGen.head' mem_cons_self (hreaches.mono (subset_cons_self _ _))
  · intro hreaches a hcycle
    rcases transGen_cons hcycle with hold | ⟨hsource,htarget⟩
    · exact h a hold
    · exact hreaches (htarget.trans hsource)

theorem mem_of_closed (edges : Edges α) (set : Finset α)
    (h : ∀ edge ∈ edges,edge.1 ∈ set → edge.2 ∈ set) {a b : α} (ha : a ∈ set)
    (hreaches : Reaches edges a b) : b ∈ set := by
  induction hreaches with
  | refl => exact ha
  | tail _ hstep ih => exact h _ hstep ih

variable [DecidableEq α]

def spread (edges : Edges α) (set : Finset α) : Finset α :=
  edges.foldl (fun set edge => if edge.1 ∈ set then insert edge.2 set else set) set

@[simp] theorem spread_cons (edge : α × α) (edges : Edges α) (set : Finset α) :
    spread (edge::edges) set =
      spread edges (if edge.1 ∈ set then insert edge.2 set else set) := rfl

theorem subset_spread (edges : Edges α) (set : Finset α) : set ⊆ spread edges set := by
  induction edges generalizing set with
  | nil => exact Finset.Subset.refl _
  | cons edge edges ih =>
    rw [spread_cons]
    split_ifs
    · exact (Finset.subset_insert _ _).trans (ih _)
    · exact ih _

variable {set : Finset α}

theorem mem_spread {edges all : Edges α} (hall : edges ⊆ all) {a : α} (h : a ∈ spread edges set) :
    (∃ b ∈ set,Reaches all b a) ∧ (a ∈ set ∨ a ∈ edges.map Prod.snd) := by
  induction edges generalizing set with
  | nil => exact ⟨⟨a,h,.refl⟩,.inl h⟩
  | cons edge edges ih =>
    obtain ⟨hedge,hrest⟩ := cons_subset.mp hall
    rw [spread_cons] at h
    obtain ⟨⟨b,hb,hreaches⟩,hmem⟩ := ih hrest h
    rw [map_cons,mem_cons]
    split_ifs at hb hmem with hsource
    · constructor
      · rcases Finset.mem_insert.mp hb with rfl | hb
        · exact ⟨edge.1,hsource,hreaches.head hedge⟩
        · exact ⟨b,hb,hreaches⟩
      · rcases hmem with hmem | hmem
        · exact (Finset.mem_insert.mp hmem).elim (fun h => .inr (.inl h)) .inl
        · exact .inr (.inr hmem)
    · exact ⟨⟨b,hb,hreaches⟩,hmem.imp_right .inr⟩

theorem closed_of_spread_subset {edges : Edges α}
    (h : spread edges set ⊆ set) : ∀ edge ∈ edges,edge.1 ∈ set → edge.2 ∈ set := by
  induction edges generalizing set with
  | nil => nofun
  | cons edge edges ih =>
    rw [spread_cons] at h
    have hfirst : edge.1 ∈ set → edge.2 ∈ set := by
      intro hsource
      rw [if_pos hsource] at h
      exact h (subset_spread _ _ (Finset.mem_insert_self _ _))
    have hsame : (if edge.1 ∈ set then insert edge.2 set else set) = set := by
      split_ifs with hsource
      · exact Finset.insert_eq_of_mem (hfirst hsource)
      · rfl
    rw [hsame] at h
    intro other hother
    rcases mem_cons.mp hother with rfl | hother
    · exact hfirst
    · exact ih h other hother

/-- A pass, and another one where it changed the set. -/
def saturateStep (edges : Edges α) (set : Finset α) : Flow (Finset α) :=
  if (spread edges set).card = set.card then .stop (spread edges set)
  else .next (spread edges set)

def saturate (edges : Edges α) (set : Finset α) : Option (Finset α) :=
  loop (saturateStep edges) (edges.length+1) set

def missing (edges : Edges α) (set : Finset α) : ℕ := ((edges.map Prod.snd).toFinset \ set).card

theorem missing_le (edges : Edges α) (set : Finset α) : missing edges set ≤ edges.length := by
  have htargets:=toFinset_card_le (edges.map Prod.snd)
  rw [length_map] at htargets
  exact (Finset.card_le_card Finset.sdiff_subset).trans htargets

theorem missing_spread_lt {edges : Edges α} (h : (spread edges set).card ≠ set.card) :
    missing edges (spread edges set) < missing edges set := by
  have hsub:=subset_spread edges set
  obtain ⟨a,ha,hnew⟩ := Finset.exists_of_ssubset (hsub.ssubset_of_ne fun heq => h (by rw [← heq]))
  have htarget:=(mem_spread (List.Subset.refl _) ha).2.resolve_left hnew
  apply Finset.card_lt_card
  apply (Finset.sdiff_subset_sdiff (Finset.Subset.refl _) hsub).ssubset_of_ne
  intro heq
  have hmem : a ∈ (edges.map Prod.snd).toFinset \ set :=
    Finset.mem_sdiff.mpr ⟨mem_toFinset.mpr htarget,hnew⟩
  rw [← heq] at hmem
  exact (Finset.mem_sdiff.mp hmem).2 ha

theorem saturate_spec (edges : Edges α) (set : Finset α) : ∃ final,
    saturate edges set = some final ∧ ∀ a,a ∈ final ↔ ∃ b ∈ set,Reaches edges b a := by
  apply loop_spec
    (fun current => set ⊆ current ∧ ∀ a ∈ current,∃ b ∈ set,Reaches edges b a) _
    (missing edges)
  · intro current next ⟨hset,hreached⟩ hnext
    unfold saturateStep at hnext
    split_ifs at hnext with hcard
    obtain rfl := Flow.next.inj hnext
    refine ⟨⟨hset.trans (subset_spread _ _),?_⟩,missing_spread_lt hcard⟩
    intro a ha
    obtain ⟨b,hb,hba⟩ := (mem_spread (List.Subset.refl _) ha).1
    obtain ⟨c,hc,hcb⟩ := hreached b hb
    exact ⟨c,hc,hcb.trans hba⟩
  · intro current final ⟨hset,hreached⟩ hstop
    unfold saturateStep at hstop
    split_ifs at hstop with hcard
    have hsame : current = spread edges current :=
      Finset.eq_of_subset_of_card_le (subset_spread _ _) (Nat.le_of_eq hcard)
    obtain rfl := Flow.stop.inj hstop
    rw [← hsame]
    intro a
    refine ⟨hreached a,?_⟩
    rintro ⟨b,hb,hba⟩
    have hclosed : ∀ edge ∈ edges,edge.1 ∈ current → edge.2 ∈ current :=
      closed_of_spread_subset (by rw [← hsame])
    exact mem_of_closed _ _ hclosed (hset hb) hba
  · exact ⟨Finset.Subset.refl _,fun a ha => ⟨a,ha,.refl⟩⟩
  · exact Nat.lt_succ_of_le (missing_le _ _)

inductive Walk (edges : Edges α) (start : α) : List α → α → Prop where
  | nil : Walk edges start [] start
  | snoc {path : List α} {a b : α} (walk : Walk edges start path a) (step : Step edges a b) :
      Walk edges start (path++[b]) b

omit [DecidableEq α] in
theorem Walk.reaches {edges : Edges α} {start a : α} {path : List α} (h : Walk edges start path a) :
    Reaches edges start a := by
  induction h with
  | nil => exact .refl
  | snoc _ step ih => exact ih.tail step

structure Search (α : Type) where
  queue : List (α × List α)
  visited : Finset α
  found : Option (List α)

def searchStep (edges : Edges α) (target : α) (search : Search α) : Flow (Search α) :=
  match search.queue with
  | [] => .stop search
  | (node,path)::rest =>
    if node = target then .stop { search with found := some path }
    else if node ∈ search.visited then .next { search with queue := rest }
    else .next { search with
      queue := rest++(edges.filter fun edge => edge.1 = node).map fun edge =>
        (edge.2,path++[edge.2])
      visited := insert node search.visited }

def search (edges : Edges α) (target start : α) (path : List α) : Option (Option (List α)) :=
  (loop (searchStep edges target) ((edges.length+1)*(edges.length+1)+2)
    ⟨[(start,path)],∅,none⟩).map Search.found

def searchable (edges : Edges α) (start : α) : Finset α :=
  insert start (edges.map Prod.snd).toFinset

theorem card_searchable_le (edges : Edges α) (start : α) :
    (searchable edges start).card ≤ edges.length+1 := by
  have htargets:=toFinset_card_le (edges.map Prod.snd)
  rw [length_map] at htargets
  exact (Finset.card_insert_le _ _).trans (Nat.succ_le_succ htargets)

/-- The queue leads on from what was visited, and the target was not met yet. -/
structure Searching (edges : Edges α) (target start : α) (path : List α) (search : Search α) :
    Prop where
  walks : ∀ entry ∈ search.queue,∃ walk,entry.2 = path++walk ∧ Walk edges start walk entry.1
  nodes : ∀ entry ∈ search.queue,entry.1 ∈ searchable edges start
  begun : start ∈ search.visited ∨ start ∈ search.queue.map Prod.fst
  ahead : ∀ edge ∈ edges,edge.1 ∈ search.visited →
    edge.2 ∈ search.visited ∨ edge.2 ∈ search.queue.map Prod.fst
  unmet : target ∉ search.visited
  unfound : search.found = none

theorem Searching.init (edges : Edges α) (target start : α) (path : List α) :
    Searching edges target start path ⟨[(start,path)],∅,none⟩ where
  walks := by
    intro entry hentry
    obtain rfl := mem_singleton.mp hentry
    exact ⟨[],(append_nil _).symm,.nil⟩
  nodes := by
    intro entry hentry
    obtain rfl := mem_singleton.mp hentry
    exact Finset.mem_insert_self _ _
  begun := .inr mem_cons_self
  ahead := fun edge _ hvisited => absurd hvisited (Finset.notMem_empty _)
  unmet := Finset.notMem_empty _
  unfound := rfl

section Searching

variable {edges : Edges α} {target start node : α} {path before : List α}
  {rest : List (α × List α)} {visited : Finset α} {found : Option (List α)}

theorem Searching.drop (h : Searching edges target start path ⟨(node,before)::rest,visited,found⟩)
    (hvisited : node ∈ visited) : Searching edges target start path ⟨rest,visited,found⟩ where
  walks := fun entry hentry => h.walks entry (mem_cons_of_mem _ hentry)
  nodes := fun entry hentry => h.nodes entry (mem_cons_of_mem _ hentry)
  begun := by
    rcases h.begun with hstart | hstart
    · exact .inl hstart
    · rcases mem_cons.mp hstart with rfl | hstart
      · exact .inl hvisited
      · exact .inr hstart
  ahead := by
    intro edge hedge hsource
    rcases h.ahead edge hedge hsource with htarget | htarget
    · exact .inl htarget
    · rcases mem_cons.mp htarget with htarget | htarget
      · rw [htarget]
        exact .inl hvisited
      · exact .inr htarget
  unmet := h.unmet
  unfound := h.unfound

theorem Searching.visit
    (h : Searching edges target start path ⟨(node,before)::rest,visited,found⟩)
    (htarget : node ≠ target) : Searching edges target start path
      ⟨rest++(edges.filter fun edge => edge.1 = node).map fun edge => (edge.2,before++[edge.2]),
        insert node visited,found⟩ where
  walks := by
    intro entry hentry
    rcases mem_append.mp hentry with hentry | hentry
    · exact h.walks entry (mem_cons_of_mem _ hentry)
    · obtain ⟨edge,hedge,rfl⟩ := mem_map.mp hentry
      obtain ⟨hedge,hnode⟩ := mem_filter.mp hedge
      obtain ⟨walk,hpath,hwalk⟩ := h.walks _ mem_cons_self
      refine ⟨walk++[edge.2],?_,hwalk.snoc ?_⟩
      · dsimp only at hpath ⊢
        rw [hpath,append_assoc]
      · rw [Step,← of_decide_eq_true hnode]
        exact hedge
  nodes := by
    intro entry hentry
    rcases mem_append.mp hentry with hentry | hentry
    · exact h.nodes entry (mem_cons_of_mem _ hentry)
    · obtain ⟨edge,hedge,rfl⟩ := mem_map.mp hentry
      exact Finset.mem_insert_of_mem (mem_toFinset.mpr
        (mem_map_of_mem (mem_of_mem_filter hedge)))
  begun := by
    rcases h.begun with hstart | hstart
    · exact .inl (Finset.mem_insert_of_mem hstart)
    · rcases mem_cons.mp hstart with rfl | hstart
      · exact .inl (Finset.mem_insert_self _ _)
      · exact .inr (by rw [map_append]; exact mem_append_left _ hstart)
  ahead := by
    intro edge hedge hsource
    dsimp only
    rw [map_append,map_map,mem_append,Finset.mem_insert]
    rcases Finset.mem_insert.mp hsource with hsource | hsource
    · right
      right
      exact mem_map.mpr ⟨edge,mem_filter.mpr ⟨hedge,decide_eq_true hsource⟩,rfl⟩
    · rcases h.ahead edge hedge hsource with hold | hold
      · exact .inl (.inr hold)
      · rcases mem_cons.mp hold with hnode | hold
        · exact .inl (.inl hnode)
        · exact .inr (.inl hold)
  unmet := by
    rw [Finset.mem_insert]
    rintro (rfl | hvisited)
    · exact htarget rfl
    · exact h.unmet hvisited
  unfound := h.unfound

end Searching

/-- The path that a search finds is a walk to its target, which it finds where there is one. -/
structure Searched (edges : Edges α) (target start : α) (path : List α)
    (found : Option (List α)) : Prop where
  walk : ∀ result,found = some result → ∃ walk,result = path++walk ∧
    Walk edges start walk target
  none : found = none → ¬ Reaches edges start target

theorem Searching.done {edges : Edges α} {target start : α} {path : List α} {search : Search α}
    (h : Searching edges target start path search) (hempty : search.queue = []) :
    Searched edges target start path search.found where
  walk := by
    intro result hresult
    rw [h.unfound] at hresult
    cases hresult
  none := by
    intro _ hreaches
    apply h.unmet
    refine mem_of_closed edges search.visited ?_ ?_ hreaches
    · intro edge hedge hsource
      refine (h.ahead edge hedge hsource).resolve_right ?_
      rw [hempty]
      exact not_mem_nil
    · refine h.begun.resolve_right ?_
      rw [hempty]
      exact not_mem_nil

def searchMeasure (edges : Edges α) (start : α) (search : Search α) : ℕ :=
  (searchable edges start \ search.visited).card*(edges.length+1)+search.queue.length

theorem searchStep_next {edges : Edges α} {target start : α} {path : List α} :
    ∀ search next,Searching edges target start path search →
      searchStep edges target search = .next next →
      Searching edges target start path next ∧
        searchMeasure edges start next < searchMeasure edges start search := by
  rintro ⟨queue,visited,found⟩ next h hnext
  unfold searchStep at hnext
  cases queue with
  | nil => cases hnext
  | cons entry rest =>
    obtain ⟨node,before⟩ := entry
    dsimp only at hnext
    split_ifs at hnext with htarget hvisited
    · obtain rfl := Flow.next.inj hnext
      refine ⟨h.drop hvisited,?_⟩
      simp [searchMeasure]
    · obtain rfl := Flow.next.inj hnext
      refine ⟨h.visit htarget,?_⟩
      have hnode : node ∈ searchable edges start \ visited :=
        Finset.mem_sdiff.mpr ⟨h.nodes _ mem_cons_self,hvisited⟩
      have hless : (searchable edges start \ insert node visited).card+1 =
          (searchable edges start \ visited).card := by
        rw [Finset.sdiff_insert,Finset.card_erase_add_one hnode]
      have hqueued : (edges.filter fun edge => edge.1 = node).length ≤ edges.length :=
        length_filter_le _ _
      simp only [searchMeasure,length_append,length_map,length_cons]
      rw [← hless,Nat.succ_mul]
      omega

theorem searchStep_stop {edges : Edges α} {target start : α} {path : List α} :
    ∀ search final,Searching edges target start path search →
      searchStep edges target search = .stop final →
      Searched edges target start path final.found := by
  rintro ⟨queue,visited,found⟩ final h hstop
  unfold searchStep at hstop
  cases queue with
  | nil =>
    obtain rfl := Flow.stop.inj hstop
    exact h.done rfl
  | cons entry rest =>
    obtain ⟨node,before⟩ := entry
    dsimp only at hstop
    split_ifs at hstop with htarget
    · obtain rfl := Flow.stop.inj hstop
      constructor
      · intro result hresult
        obtain rfl := Option.some.inj hresult
        rw [← htarget]
        exact h.walks _ mem_cons_self
      · nofun

theorem search_spec (edges : Edges α) (target start : α) (path : List α) : ∃ found,
    search edges target start path = some found ∧ Searched edges target start path found := by
  have hloop : ∃ final,loop (searchStep edges target)
      ((edges.length+1)*(edges.length+1)+2) ⟨[(start,path)],∅,none⟩ = some final ∧
      Searched edges target start path final.found := by
    apply loop_spec (Searching edges target start path)
      (fun search => Searched edges target start path search.found) (searchMeasure edges start)
    · exact searchStep_next
    · exact searchStep_stop
    · exact Searching.init edges target start path
    · have hcard:=card_searchable_le edges start
      have hbound:=Nat.mul_le_mul_right (edges.length+1) hcard
      simp only [searchMeasure,Finset.sdiff_empty,length_singleton]
      omega
  obtain ⟨final,hfinal,hsearched⟩ := hloop
  refine ⟨final.found,?_,hsearched⟩
  rw [search,hfinal]
  rfl

end Zeppelin.Reachability
