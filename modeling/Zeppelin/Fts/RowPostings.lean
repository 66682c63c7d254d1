import Mathlib.Data.List.Dedup
import Zeppelin.Fts.SealedSegment
import Zeppelin.Machine.Except

namespace Zeppelin.Fts
open List

structure Holds (index : SegmentIndex) (content : TermKey → PostingList) : Prop where
  found : ∀ {key slot},index.terms.lookup key = some slot →
    index.lists[slot]? = some (content key) ∧ content key ≠ []
  missing : ∀ {key},index.terms.lookup key = none → content key = []
  injective : ∀ {key key' slot},index.terms.lookup key = some slot →
    index.terms.lookup key' = some slot → key = key'
  free : ∀ slot ∈ index.freeSlots,slot < index.lists.length ∧
    ∀ key,index.terms.lookup key ≠ some slot
  freeNodup : index.freeSlots.Nodup

section Postings
variable {index : SegmentIndex} {content : TermKey → PostingList}

theorem Holds.postingList (h : Holds index content) (term : String) (field : FieldId) :
    index.postingList term field =
      if content ⟨term,field⟩ = [] then none else some (content ⟨term,field⟩) := by
  unfold SegmentIndex.postingList
  cases hlookup : index.terms.lookup ⟨term,field⟩ with
  | none =>
    rw [h.missing hlookup]
    rfl
  | some slot =>
    obtain ⟨hlist,hne⟩ := h.found hlookup
    rw [if_neg hne]
    exact hlist

theorem Holds.new : Holds SegmentIndex.new fun _ => [] :=
  ⟨nofun,fun _ => rfl,nofun,nofun,nodup_nil⟩

theorem Holds.congr {index' : SegmentIndex} (h : Holds index content)
    (hterms : index'.terms = index.terms) (hlists : index'.lists = index.lists)
    (hfree : index'.freeSlots = index.freeSlots) : Holds index' content := by
  refine ⟨?_,?_,?_,?_,?_⟩
  · rw [hterms,hlists]
    exact h.found
  · rw [hterms]
    exact h.missing
  · rw [hterms]
    exact h.injective
  · rw [hfree,hterms,hlists]
    exact h.free
  · rw [hfree]
    exact h.freeNodup

variable {key : TermKey} {slot : ℕ} {list : PostingList} {p : Posting}

theorem lookup_cons_ne {β : Type} {key' : TermKey} {slot : β} {terms : List (TermKey × β)}
    (h : key' ≠ key) : List.lookup key' ((key,slot)::terms) = List.lookup key' terms := by
  simp only [List.lookup_cons,beq_eq_false_iff_ne.mpr h]

theorem lookup_cons_self {terms : List (TermKey × ℕ)} :
    List.lookup key ((key,slot)::terms) = some slot := by
  simp

theorem lookup_filter_ne {β : Type} {key' : TermKey} (h : key' ≠ key) (terms : List (TermKey × β)) :
    (terms.filter fun entry => decide (entry.1 ≠ key)).lookup key' = terms.lookup key' := by
  induction terms with
  | nil => rfl
  | cons entry terms ih =>
    obtain ⟨k,slot⟩ := entry
    by_cases hk : k = key
    · subst hk
      rw [filter_cons_of_neg (by simp),ih,lookup_cons_ne h]
    · rw [filter_cons_of_pos (by simpa using hk),List.lookup_cons,List.lookup_cons,ih]

theorem Holds.set (h : Holds index content)
    (hkey : index.terms.lookup key = some slot) (hne : list ≠ []) :
    Holds { index with lists := index.lists.set slot list } (Function.update content key list) := by
  have hlt : slot < index.lists.length := by
    have hlist:=(h.found hkey).1
    exact (List.getElem?_eq_some_iff.mp hlist).1
  refine ⟨?_,?_,h.injective,?_,h.freeNodup⟩
  · intro key' slot' hkey'
    by_cases heq : key' = key
    · subst heq
      have hslot : slot' = slot := Option.some.inj (hkey'.symm.trans hkey)
      subst hslot
      rw [Function.update_self]
      exact ⟨by simp [hlt],hne⟩
    · have hslot : slot ≠ slot' := fun hs => heq (h.injective hkey' (hs ▸ hkey))
      rw [Function.update_of_ne heq]
      obtain ⟨hlist,hne'⟩ := h.found hkey'
      exact ⟨by simp only [getElem?_set_ne hslot,hlist],hne'⟩
  · intro key' hkey'
    have heq : key' ≠ key := fun heq => by
      rw [heq] at hkey'
      exact absurd (hkey'.symm.trans hkey) (by simp)
    rw [Function.update_of_ne heq]
    exact h.missing hkey'
  · intro slot' hslot'
    obtain ⟨hlt',hfree⟩ := h.free slot' hslot'
    exact ⟨by simpa using hlt',hfree⟩

theorem Holds.cons (h : Holds index content)
    (hkey : index.terms.lookup key = none) (hne : list ≠ [])
    {lists : List PostingList} {freeSlots : List ℕ} (hslot : lists[slot]? = some list)
    (hlists : ∀ slot',slot' ≠ slot → index.lists[slot']? ≠ none → lists[slot']? = index.lists[slot']?)
    (hnew : ∀ key',index.terms.lookup key' ≠ some slot)
    (hfree : ∀ slot' ∈ freeSlots,slot' ∈ index.freeSlots ∧ slot' ≠ slot) (hnodup : freeSlots.Nodup)
    (hlen : index.lists.length ≤ lists.length) :
    Holds ⟨(key,slot)::index.terms,lists,index.lengths,index.rowCount,freeSlots⟩
      (Function.update content key list) := by
  refine ⟨?_,?_,?_,?_,hnodup⟩
  · intro key' slot' hkey'
    by_cases heq : key' = key
    · subst heq
      rw [lookup_cons_self] at hkey'
      obtain rfl := Option.some.inj hkey'
      rw [Function.update_self]
      exact ⟨hslot,hne⟩
    · rw [lookup_cons_ne heq] at hkey'
      obtain ⟨hlist,hne'⟩ := h.found hkey'
      rw [Function.update_of_ne heq]
      refine ⟨?_,hne'⟩
      simp only
      rw [hlists slot' (fun hs => hnew key' (hs ▸ hkey')) (by rw [hlist]; simp),hlist]
  · intro key' hkey'
    have heq : key' ≠ key := by
      rintro rfl
      rw [lookup_cons_self] at hkey'
      cases hkey'
    rw [lookup_cons_ne heq] at hkey'
    rw [Function.update_of_ne heq]
    exact h.missing hkey'
  · intro key₁ key₂ slot' h₁ h₂
    by_cases heq₁ : key₁ = key
    · subst heq₁
      rw [lookup_cons_self] at h₁
      obtain rfl := Option.some.inj h₁
      by_contra hne'
      rw [lookup_cons_ne (Ne.symm hne')] at h₂
      exact hnew key₂ h₂
    · rw [lookup_cons_ne heq₁] at h₁
      by_cases heq₂ : key₂ = key
      · subst heq₂
        rw [lookup_cons_self] at h₂
        obtain rfl := Option.some.inj h₂
        exact absurd h₁ (hnew key₁)
      · rw [lookup_cons_ne heq₂] at h₂
        exact h.injective h₁ h₂
  · intro slot' hslot'
    obtain ⟨hmem,hne'⟩ := hfree slot' hslot'
    obtain ⟨hlt,hunused⟩ := h.free slot' hmem
    refine ⟨by simp only; omega,?_⟩
    intro key'
    by_cases heq : key' = key
    · subst heq
      rw [lookup_cons_self]
      exact fun hs => hne' (Option.some.inj hs).symm
    · rw [lookup_cons_ne heq]
      exact hunused key'

theorem Holds.addTerm (h : Holds index content)
    (hkey : index.terms.lookup key = none) (hne : list ≠ []) :
    Holds (index.addTerm key list) (Function.update content key list) := by
  have hbound : ∀ key',index.terms.lookup key' ≠ some index.lists.length := by
    intro key' hkey'
    have hlist:=(h.found hkey').1
    rw [getElem?_eq_none (Nat.le_refl _)] at hlist
    cases hlist
  unfold SegmentIndex.addTerm
  cases hfree : index.freeSlots with
  | nil =>
    refine h.cons hkey hne (by simp) ?_ hbound (by simp) (by simp) (by simp)
    intro slot' hslot' hsome
    exact getElem?_append_left (by simpa using hsome)
  | cons slot freeSlots =>
    obtain ⟨hlt,hunused⟩ := h.free slot (by rw [hfree]; exact mem_cons_self ..)
    have hnodup:=h.freeNodup
    rw [hfree] at hnodup
    obtain ⟨hnotMem,hrest⟩ := nodup_cons.mp hnodup
    simp only [if_pos hlt]
    refine h.cons hkey hne (by simp [hlt]) ?_ hunused ?_ hrest (by simp)
    · intro slot' hslot' _
      exact getElem?_set_ne (Ne.symm hslot')
    · intro slot' hslot'
      refine ⟨by rw [hfree]; exact mem_cons_of_mem _ hslot',?_⟩
      rintro rfl
      exact hnotMem hslot'

theorem Holds.dropTerm (h : Holds index content) (hkey : index.terms.lookup key = some slot) :
    Holds { index with
      terms := index.terms.filter fun entry => entry.1 ≠ key
      lists := index.lists.set slot []
      freeSlots := slot::index.freeSlots } (Function.update content key []) := by
  have hself : (index.terms.filter fun entry => decide (entry.1 ≠ key)).lookup key = none := by
    rw [lookup_eq_none_iff]
    intro entry hentry
    have hne : entry.1 ≠ key := by simpa using (mem_filter.mp hentry).2
    exact bne_iff_ne.mpr (Ne.symm hne)
  have hother : ∀ {key'},key' ≠ key →
      (index.terms.filter fun entry => decide (entry.1 ≠ key)).lookup key' =
        index.terms.lookup key' := fun hne => lookup_filter_ne hne index.terms
  refine ⟨?_,?_,?_,?_,?_⟩
  · intro key' slot' hkey'
    by_cases heq : key' = key
    · subst heq
      rw [hself] at hkey'
      cases hkey'
    · rw [hother heq] at hkey'
      have hslot : slot ≠ slot' := fun hs => heq (h.injective hkey' (hs ▸ hkey))
      rw [Function.update_of_ne heq]
      obtain ⟨hlist,hne⟩ := h.found hkey'
      exact ⟨by simp only [getElem?_set_ne hslot,hlist],hne⟩
  · intro key' hkey'
    by_cases heq : key' = key
    · rw [heq,Function.update_self]
    · rw [hother heq] at hkey'
      rw [Function.update_of_ne heq]
      exact h.missing hkey'
  · intro key₁ key₂ slot' h₁ h₂
    have hne : ∀ {key'},(index.terms.filter fun entry => decide (entry.1 ≠ key)).lookup key' =
        some slot' → key' ≠ key := by
      rintro key' hkey' rfl
      rw [hself] at hkey'
      cases hkey'
    rw [hother (hne h₁)] at h₁
    rw [hother (hne h₂)] at h₂
    exact h.injective h₁ h₂
  · intro slot' hslot'
    have hlt : slot < index.lists.length :=
      (List.getElem?_eq_some_iff.mp (h.found hkey).1).1
    rcases mem_cons.mp hslot' with rfl | hslot'
    · refine ⟨by simpa using hlt,?_⟩
      intro key' hkey'
      by_cases heq : key' = key
      · subst heq
        rw [hself] at hkey'
        cases hkey'
      · rw [hother heq] at hkey'
        exact heq (h.injective hkey' hkey)
    · obtain ⟨hlt',hunused⟩ := h.free slot' hslot'
      refine ⟨by simpa using hlt',?_⟩
      intro key' hkey'
      by_cases heq : key' = key
      · subst heq
        rw [hself] at hkey'
        cases hkey'
      · rw [hother heq] at hkey'
        exact hunused key' hkey'
  · refine nodup_cons.mpr ⟨?_,h.freeNodup⟩
    intro hmem
    exact (h.free slot hmem).2 key hkey

def ValidPosting (p : Posting) : Prop :=
  p.tf ≠ 0 ∧ p.positions ≠ [] ∧ validatePositions p.positions = .ok ()

theorem place_between (placement : Placement) {before after : PostingList}
    (hp : ValidPosting p) (hbefore : ∀ q ∈ before,q.docid < p.docid)
    (hafter : ∀ q ∈ after,p.docid < q.docid) (hend : placement = .append → after = []) :
    place placement (before++after) p = .ok (before++p::after) := by
  obtain ⟨htf,hpos,hvalid⟩ := hp
  cases placement with
  | append =>
    rw [hend rfl,append_nil,place,pushPosting,if_neg (by simp [htf,hpos]),if_neg,hvalid,
      ok_bind]
    · rfl
    · cases hlast : before.getLast? with
      | none => simp
      | some last =>
        have hlt:=hbefore last (mem_of_getLast? hlast)
        simp [hlt]
  | insert =>
    have htake : (before++after).takeWhile (fun q => q.docid < p.docid) = before := by
      rw [takeWhile_append_of_pos (by simpa using hbefore)]
      cases after with
      | nil => simp
      | cons q after =>
        have hq:=hafter q (mem_cons_self ..)
        rw [takeWhile_cons_of_neg (by simp; omega),append_nil]
    have hnext : (before++after)[before.length]?.any (fun q => q.docid = p.docid) = false := by
      rw [getElem?_append_right (Nat.le_refl _),Nat.sub_self]
      cases after with
      | nil => rfl
      | cons q after =>
        have hq:=hafter q (mem_cons_self ..)
        simp
        omega
    rw [place,insertPosting,if_neg (by simp [htf,hpos])]
    simp only [htake,hnext,Bool.false_eq_true,if_false,hvalid,ok_bind]
    rw [take_left,drop_left]
    rfl

theorem removePosting_between {before after : PostingList}
    (hbefore : ∀ q ∈ before,q.docid < p.docid) :
    removePosting (before++p::after) p.docid = some (before++after) := by
  have hskip : ∀ q ∈ before,¬ decide (q.docid = p.docid) = true := by
    intro q hq
    have hlt:=hbefore q hq
    simp
    omega
  rw [removePosting,if_pos (by simp),eraseP_append_right _ hskip,eraseP_cons_of_pos (by simp)]

theorem Holds.addPosting (h : Holds index content) (placement : Placement)
    {before after : PostingList} (hp : ValidPosting p)
    (hcontent : content key = before++after) (hbefore : ∀ q ∈ before,q.docid < p.docid)
    (hafter : ∀ q ∈ after,p.docid < q.docid) (hend : placement = .append → after = []) :
    ∃ next,index.addPosting placement key p = .ok next ∧
      Holds next (Function.update content key (before++p::after)) ∧
      next.rowCount = index.rowCount := by
  have hplace:=place_between placement hp hbefore hafter hend
  have hne : before++p::after ≠ [] := by simp
  unfold SegmentIndex.addPosting
  cases hkey : index.terms.lookup key with
  | some slot =>
    refine ⟨_,?_,h.set hkey hne,rfl⟩
    simp only [(h.found hkey).1,hcontent,hplace,SegmentIndex.liftPostings,ok_bind]
    rfl
  | none =>
    have hnil:=h.missing hkey
    rw [hcontent,append_eq_nil_iff] at hnil
    obtain ⟨rfl,rfl⟩ := hnil
    have hpush : pushPosting [] p = .ok [p] := by
      obtain ⟨htf,hpos,hvalid⟩ := hp
      rw [pushPosting,if_neg (by simp [htf,hpos]),if_neg (by simp),hvalid,ok_bind]
      rfl
    refine ⟨index.addTerm key [p],?_,h.addTerm hkey (by simp),?_⟩
    · simp only [hpush,SegmentIndex.liftPostings,ok_bind]
      rfl
    · unfold SegmentIndex.addTerm
      split
      · split <;> rfl
      · rfl

theorem Holds.dropPosting (h : Holds index content) {before after : PostingList}
    (hcontent : content key = before++p::after) (hbefore : ∀ q ∈ before,q.docid < p.docid) :
    ∃ next,index.dropPosting p.docid key = .ok next ∧
      Holds next (Function.update content key (before++after)) ∧
      next.rowCount = index.rowCount := by
  have hremove : removePosting (before++p::after) p.docid = some (before++after) :=
    removePosting_between hbefore
  unfold SegmentIndex.dropPosting
  cases hkey : index.terms.lookup key with
  | none =>
    have hnil:=h.missing hkey
    rw [hcontent] at hnil
    simp at hnil
  | some slot =>
    simp only [(h.found hkey).1,hcontent,hremove]
    cases hrest : before++after with
    | nil => exact ⟨_,rfl,h.dropTerm hkey,rfl⟩
    | cons q rest => exact ⟨_,rfl,h.set hkey (by simp),rfl⟩

end Postings

abbrev RowTerms := List (TermKey × List U32)

def rowPostings (key : TermKey) : ℕ → List RowTerms → PostingList
  | _,[] => []
  | row,terms::rows =>
    ((terms.lookup key).map (SegmentIndex.posting row)).toList++rowPostings key (row+1) rows

theorem rowPostings_append (key : TermKey) (row : ℕ) (rows more : List RowTerms) :
    rowPostings key row (rows++more) =
      rowPostings key row rows++rowPostings key (row+rows.length) more := by
  induction rows generalizing row with
  | nil => rfl
  | cons terms rows ih =>
    rw [cons_append,rowPostings,ih,rowPostings,append_assoc,length_cons,
      Nat.add_right_comm,Nat.add_assoc]

theorem rowPostings_docid {key : TermKey} {row : ℕ} {rows : List RowTerms} {p : Posting}
    (h : p ∈ rowPostings key row rows) : row ≤ p.docid ∧ p.docid < row+rows.length := by
  induction rows generalizing row with
  | nil => cases h
  | cons terms rows ih =>
    rw [length_cons]
    rcases mem_append.mp h with h | h
    · cases hlookup : terms.lookup key with
      | none =>
        rw [hlookup] at h
        cases h
      | some positions =>
        rw [hlookup] at h
        rw [mem_singleton.mp h]
        exact ⟨Nat.le_refl _,by simp [SegmentIndex.posting]⟩
    · obtain ⟨h1,h2⟩ := ih h
      omega

def contentOf (rows : List RowTerms) (key : TermKey) : PostingList := rowPostings key 0 rows

section Row
variable (before after : List RowTerms)

theorem contentOf_split (terms : RowTerms) (key : TermKey) :
    contentOf (before++terms::after) key = rowPostings key 0 before++
      (((terms.lookup key).map (SegmentIndex.posting before.length)).toList++
        rowPostings key (before.length+1) after) := by
  rw [contentOf,rowPostings_append,Nat.zero_add,rowPostings]

theorem contentOf_update {terms terms' : RowTerms} {key : TermKey}
    (h : ∀ key',key' ≠ key → terms'.lookup key' = terms.lookup key') :
    Function.update (contentOf (before++terms::after)) key
        (contentOf (before++terms'::after) key) =
      contentOf (before++terms'::after) := by
  funext key'
  by_cases heq : key' = key
  · rw [heq,Function.update_self]
  · rw [Function.update_of_ne heq,contentOf_split,contentOf_split,h key' heq]

variable {before after} {index : SegmentIndex} {terms : RowTerms} {key : TermKey}

theorem lookup_concat_self (positions : List U32)
    (h : terms.lookup key = none) : (terms++[(key,positions)]).lookup key = some positions := by
  rw [lookup_append,h]
  simp

theorem lookup_concat_ne {key' : TermKey} (positions : List U32)
    (h : key' ≠ key) : (terms++[(key,positions)]).lookup key' = terms.lookup key' := by
  rw [lookup_append]
  simp [List.lookup_cons,beq_eq_false_iff_ne.mpr h]

def ValidPositions (positions : List U32) : Prop :=
  positions ≠ [] ∧ validatePositions positions = .ok ()

variable {positions : List U32} {placement : Placement}

theorem ValidPositions.posting (h : ValidPositions positions) (row : ℕ) :
    ValidPosting (SegmentIndex.posting row positions) := by
  have hpos:=length_pos_iff.mpr h.1
  exact ⟨by simp only [SegmentIndex.posting]; omega,h.1,h.2⟩

theorem Holds.addTermOf (h : Holds index (contentOf (before++terms::after)))
    (hnew : terms.lookup key = none) (hvalid : ValidPositions positions)
    (hend : placement = .append → after = []) :
    ∃ next,index.addPosting placement key (SegmentIndex.posting before.length positions) = .ok next ∧
      Holds next (contentOf (before++(terms++[(key,positions)])::after)) ∧
      next.rowCount = index.rowCount := by
  have hcontent : contentOf (before++terms::after) key =
      rowPostings key 0 before++rowPostings key (before.length+1) after := by
    rw [contentOf_split,hnew]
    rfl
  have hlow : ∀ q ∈ rowPostings key 0 before,
      q.docid < (SegmentIndex.posting before.length positions).docid := by
    intro q hq
    simpa [SegmentIndex.posting] using (rowPostings_docid hq).2
  have hhigh : ∀ q ∈ rowPostings key (before.length+1) after,
      (SegmentIndex.posting before.length positions).docid < q.docid := by
    intro q hq
    have hq':=(rowPostings_docid hq).1
    simp only [SegmentIndex.posting]
    omega
  obtain ⟨next,hadd,hholds,hrows⟩ := h.addPosting placement (hvalid.posting before.length) hcontent
    hlow hhigh (fun happend => by rw [hend happend]; rfl)
  refine ⟨next,hadd,?_,hrows⟩
  have hother : ∀ key',key' ≠ key →
      (terms++[(key,positions)]).lookup key' = terms.lookup key' :=
    fun _ hne => lookup_concat_ne positions hne
  have hupdate:=contentOf_update before after hother
  rw [contentOf_split before after (terms++[(key,positions)]),
    lookup_concat_self positions hnew] at hupdate
  rw [← hupdate]
  exact hholds

theorem Holds.addTermsOf (todo : RowTerms) (h : Holds index (contentOf (before++terms::after)))
    (hnodup : ((terms++todo).map Prod.fst).Nodup)
    (hvalid : ∀ group ∈ todo,ValidPositions group.2) (hend : placement = .append → after = []) :
    ∃ next,todo.foldlM (fun index group =>
        index.addPosting placement group.1 (SegmentIndex.posting before.length group.2)) index =
        .ok next ∧
      Holds next (contentOf (before++(terms++todo)::after)) ∧
      next.rowCount = index.rowCount := by
  induction todo generalizing index terms with
  | nil => exact ⟨index,rfl,by rwa [append_nil],rfl⟩
  | cons group todo ih =>
    obtain ⟨key,positions⟩ := group
    have hnew : terms.lookup key = none := by
      rw [lookup_eq_none_iff]
      intro entry hentry
      rw [map_append,nodup_append] at hnodup
      have hne:=hnodup.2.2 entry.1 (mem_map_of_mem hentry) key (by simp)
      exact bne_iff_ne.mpr (Ne.symm hne)
    obtain ⟨next,hadd,hholds,hrows⟩ := h.addTermOf hnew
      (hvalid (key,positions) (mem_cons_self ..)) hend
    obtain ⟨last,hfold,hlast,hrows'⟩ := ih hholds
      (by rwa [append_assoc,singleton_append])
      (fun group hgroup => hvalid group (mem_cons_of_mem _ hgroup))
    refine ⟨last,?_,?_,hrows'.trans hrows⟩
    · rw [foldlM_cons,hadd,ok_bind,hfold]
    · rwa [append_assoc,singleton_append] at hlast

theorem Holds.dropTermsOf {keys : List TermKey}
    (h : Holds index (contentOf (before++terms::after))) (hnodup : keys.Nodup)
    (hmem : ∀ key ∈ keys,(terms.lookup key).isSome) :
    ∃ next,keys.foldlM (SegmentIndex.dropPosting before.length) index = .ok next ∧
      Holds next (contentOf (before++(terms.filter fun group => group.1 ∉ keys)::after)) ∧
      next.rowCount = index.rowCount := by
  induction keys generalizing index terms with
  | nil =>
    refine ⟨index,rfl,?_,rfl⟩
    simpa using h
  | cons key keys ih =>
    obtain ⟨hnotMem,hkeys⟩ := nodup_cons.mp hnodup
    obtain ⟨positions,hlookup⟩ := Option.isSome_iff_exists.mp (hmem key (mem_cons_self ..))
    have hother : ∀ key',key' ≠ key →
        (terms.filter fun group => decide (group.1 ≠ key)).lookup key' = terms.lookup key' :=
      fun key' hne => lookup_filter_ne hne terms
    have hself : (terms.filter fun group => decide (group.1 ≠ key)).lookup key = none := by
      rw [lookup_eq_none_iff]
      intro entry hentry
      have hne : entry.1 ≠ key := by simpa using (mem_filter.mp hentry).2
      exact bne_iff_ne.mpr (Ne.symm hne)
    have hcontent : contentOf (before++terms::after) key = rowPostings key 0 before++
        SegmentIndex.posting before.length positions::
          rowPostings key (before.length+1) after := by
      rw [contentOf_split,hlookup]
      rfl
    obtain ⟨next,hdrop,hholds,hrows⟩ := h.dropPosting hcontent
      (fun q hq => by simpa [SegmentIndex.posting] using (rowPostings_docid hq).2)
    have hupdate:=contentOf_update before after hother
    rw [contentOf_split before after (terms.filter fun group => decide (group.1 ≠ key)),hself] at hupdate
    have hholds' : Holds next
        (contentOf (before++(terms.filter fun group => decide (group.1 ≠ key))::after)) := by
      rw [← hupdate]
      exact hholds
    obtain ⟨last,hfold,hlast,hrows'⟩ := ih hholds' hkeys (by
      intro key' hkey'
      have hne : key' ≠ key := fun heq => hnotMem (heq ▸ hkey')
      rw [hother key' hne]
      exact hmem key' (mem_cons_of_mem _ hkey'))
    refine ⟨last,?_,?_,hrows'.trans hrows⟩
    · rw [foldlM_cons]
      rw [show index.dropPosting before.length key = .ok next from hdrop,ok_bind,hfold]
    · rw [filter_filter] at hlast
      have hsame : (terms.filter fun group => decide (group.1 ∉ keys) && decide (group.1 ≠ key)) =
          terms.filter fun group => decide (group.1 ∉ key::keys) := by
        refine filter_congr fun group _ => ?_
        by_cases h1 : group.1 = key <;> by_cases h2 : group.1 ∈ keys <;> simp [h1,h2]
      rwa [hsame] at hlast

end Row

theorem distinctTerms_nodup (tokens : List Token) : (distinctTerms tokens).Nodup :=
  (mergeSort_perm _ _).nodup_iff.mpr (nodup_dedup _)

variable {tokens : List Token} {term : String}

theorem mem_distinctTerms : term ∈ distinctTerms tokens ↔ ∃ token ∈ tokens,token.term = term := by
  rw [distinctTerms,mem_mergeSort,List.mem_dedup,mem_map]

theorem validatePositions_of_lt {positions : List U32} (h : positions.Pairwise (· < ·)) :
    validatePositions positions = .ok () := by
  induction positions with
  | nil => rfl
  | cons a rest ih =>
    obtain ⟨ha,hrest⟩ := pairwise_cons.mp h
    cases rest with
    | nil => rfl
    | cons b rest =>
      have hlt : a < b := ha b (mem_cons_self ..)
      rw [validatePositions,if_neg (BitVec.not_le.mpr hlt)]
      exact ih hrest

theorem termPositions_valid
    (h : term ∈ distinctTerms tokens) : ValidPositions (termPositions tokens term) := by
  have hperm:=mergeSort_perm ((tokens.filter fun token => token.term = term).map
    Token.position).dedup fun a b => decide (a ≤ b)
  constructor
  · obtain ⟨token,htoken,hterm⟩ := mem_distinctTerms.mp h
    refine ne_nil_of_mem (a := token.position) ?_
    rw [termPositions,hperm.mem_iff,List.mem_dedup,mem_map]
    exact ⟨token,mem_filter.mpr ⟨htoken,by simpa using hterm⟩,rfl⟩
  · apply validatePositions_of_lt
    have hsorted : (termPositions tokens term).Pairwise (· ≤ ·) := by
      have htrans : ∀ a b c : U32,decide (a ≤ b) = true → decide (b ≤ c) = true →
          decide (a ≤ c) = true := by
        intro a b c hab hbc
        simp only [decide_eq_true_eq,BitVec.le_def] at hab hbc ⊢
        omega
      have htotal : ∀ a b : U32,(decide (a ≤ b) || decide (b ≤ a)) = true := by
        intro a b
        simp only [Bool.or_eq_true,decide_eq_true_eq,BitVec.le_def]
        omega
      exact (pairwise_mergeSort htrans htotal _).imp fun hle => by simpa using hle
    have hnodup : (termPositions tokens term).Nodup := hperm.nodup_iff.mpr (nodup_dedup _)
    refine List.Pairwise.imp₂ ?_ hsorted hnodup
    intro a b hle hne
    have hnat : a.toNat ≠ b.toNat := fun heq => hne (BitVec.eq_of_toNat_eq heq)
    rw [BitVec.le_def] at hle
    rw [BitVec.lt_def]
    omega

section Analyzer
variable (analyze : String → List Token)

def fieldTerms (field : FieldId × String) : RowTerms :=
  (termGroups (analyze field.2)).map fun group => (⟨group.1,field.1⟩,group.2)

def documentTerms (document : Document) : RowTerms := document.fields.flatMap (fieldTerms analyze)

def Document.Distinct (document : Document) : Prop := (document.fields.map Prod.fst).Nodup

theorem fieldTerms_keys (field : FieldId × String) :
    (fieldTerms analyze field).map Prod.fst =
      (distinctTerms (analyze field.2)).map fun term => ⟨term,field.1⟩ := by
  simp [fieldTerms,termGroups,Function.comp_def]

theorem documentTerms_nodup {fields : List (FieldId × String)} (h : (fields.map Prod.fst).Nodup) :
    ((fields.flatMap (fieldTerms analyze)).map Prod.fst).Nodup := by
  induction fields with
  | nil => exact nodup_nil
  | cons field fields ih =>
    obtain ⟨hnotMem,hfields⟩ := nodup_cons.mp h
    rw [flatMap_cons,map_append,nodup_append]
    refine ⟨?_,ih hfields,?_⟩
    · rw [fieldTerms_keys]
      refine List.Nodup.map ?_ (distinctTerms_nodup _)
      intro a b hab
      exact congrArg TermKey.term hab
    · intro key hkey key' hkey'
      rw [fieldTerms_keys] at hkey
      obtain ⟨term,-,rfl⟩ := mem_map.mp hkey
      rintro rfl
      obtain ⟨group,hgroup,hfst⟩ := mem_map.mp hkey'
      obtain ⟨field',hfield',hgroup⟩ := mem_flatMap.mp hgroup
      obtain ⟨g,-,rfl⟩ := mem_map.mp hgroup
      have hfield : field'.1 = field.1 := congrArg TermKey.field hfst
      exact hnotMem (hfield ▸ mem_map_of_mem hfield')

theorem fieldTerms_valid {field : FieldId × String} {group : TermKey × List U32}
    (h : group ∈ fieldTerms analyze field) : ValidPositions group.2 := by
  obtain ⟨g,hg,rfl⟩ := mem_map.mp h
  obtain ⟨term,hterm,rfl⟩ := mem_map.mp hg
  exact termPositions_valid hterm

structure Indexes (index : SegmentIndex) (rows : List RowTerms) : Prop where
  holds : Holds index (contentOf rows)
  rowCount : index.rowCount = min rows.length (2^32-1)

theorem Indexes.new : Indexes SegmentIndex.new [] := ⟨Holds.new,rfl⟩

section Row
variable {before after : List RowTerms} {index : SegmentIndex}

theorem Holds.accumulateFields (fields : List (FieldId × String)) {terms : RowTerms}
    (placement : Placement) (h : Holds index (contentOf (before++terms::after)))
    (hnodup : ((terms++fields.flatMap (fieldTerms analyze)).map Prod.fst).Nodup)
    (hend : placement = .append → after = []) :
    ∃ next,fields.foldlM (fun next field =>
        next.accumulate before.length field.1 (analyze field.2) placement) index = .ok next ∧
      Holds next (contentOf (before++(terms++fields.flatMap (fieldTerms analyze))::after)) ∧
      next.rowCount = index.rowCount := by
  induction fields generalizing index terms with
  | nil => exact ⟨index,rfl,by simpa using h,rfl⟩
  | cons field fields ih =>
    rw [flatMap_cons,← append_assoc] at hnodup
    have hstart : Holds
        (index.setFieldLength before.length field.1 (analyzedLength (analyze field.2)))
        (contentOf (before++terms::after)) := h.congr rfl rfl rfl
    obtain ⟨next,hadd,hholds,hrows⟩ := hstart.addTermsOf (fieldTerms analyze field)
      (by rw [map_append] at hnodup; exact (nodup_append.mp hnodup).1)
      (fun group hgroup => fieldTerms_valid analyze hgroup) hend
    obtain ⟨last,hfold,hlast,hrows'⟩ := ih hholds hnodup
    refine ⟨last,?_,?_,hrows'.trans hrows⟩
    · rw [foldlM_cons]
      rw [fieldTerms,foldlM_map] at hadd
      rw [SegmentIndex.accumulate,hadd,ok_bind,hfold]
    · rwa [flatMap_cons,← append_assoc]

end Row

theorem contentOf_concat_nil (rows : List RowTerms) : contentOf (rows++[[]]) = contentOf rows := by
  funext key
  rw [contentOf,rowPostings_append]
  simp [rowPostings,contentOf]

variable {rows : List RowTerms}

theorem Indexes.push {index : SegmentIndex} (h : Indexes index rows)
    (hlt : rows.length < 2^32) {document : Document} (hdistinct : document.Distinct) :
    ∃ next,index.pushDocument analyze document = .ok next ∧
      Indexes next (rows++[documentTerms analyze document]) := by
  have hcount : index.rowCount = rows.length := by rw [h.rowCount]; omega
  have hstart : Holds index (contentOf (rows++[[]])) := by rw [contentOf_concat_nil]; exact h.holds
  obtain ⟨next,hfold,hholds,hrows⟩ := hstart.accumulateFields analyze
    document.fields .append (documentTerms_nodup analyze hdistinct)
    (fun _ => rfl)
  refine ⟨next.finishRow,?_,hholds.congr rfl rfl rfl,?_⟩
  · rw [SegmentIndex.pushDocument,hcount,hfold,ok_bind]
    rfl
  · simp only [SegmentIndex.finishRow,SegmentIndex.padLengthsTo,hrows,hcount,length_append,
      length_singleton]

theorem removeFields_eq (row : ℕ) (index : SegmentIndex) (document : Document) :
    SegmentIndex.removeFields analyze row index document =
      ((documentTerms analyze document).map Prod.fst).foldlM (SegmentIndex.dropPosting row) index := by
  unfold SegmentIndex.removeFields documentTerms
  induction document.fields generalizing index with
  | nil => rfl
  | cons field fields ih =>
    rw [foldlM_cons,flatMap_cons,map_append,foldlM_append,fieldTerms_keys,
      foldlM_map]
    refine congrArg _ (funext fun next => ?_)
    exact ih next

theorem Indexes.replace {index next : SegmentIndex} {row : ℕ}
    {previous replacement : Document} (h : Indexes index rows)
    (hprevious : rows[row]? = some (documentTerms analyze previous))
    (hdistinct : previous.Distinct) (hdistinct' : replacement.Distinct)
    (hnext : index.replaceDocument analyze row previous replacement = .ok next) :
    Indexes next (rows.set row (documentTerms analyze replacement)) := by
  obtain ⟨hlt,hrow⟩ := List.getElem?_eq_some_iff.mp hprevious
  obtain ⟨before,after,rfl,rfl⟩ : ∃ before after,
      rows = before++documentTerms analyze previous::after ∧ before.length = row :=
    ⟨rows.take row,rows.drop (row+1),by rw [← hrow]; simp,by simp; omega⟩
  unfold SegmentIndex.replaceDocument at hnext
  obtain ⟨-,hnext⟩ := of_ite_error hnext
  rw [removeFields_eq] at hnext
  have hkeys : ((documentTerms analyze previous).map Prod.fst).Nodup :=
    documentTerms_nodup analyze hdistinct
  obtain ⟨removed,hremoved,hholds,hrows⟩ := h.holds.dropTermsOf hkeys (by
    intro key hkey
    rw [Option.isSome_iff_ne_none,Ne,lookup_eq_none_iff]
    intro hnone
    obtain ⟨group,hgroup,rfl⟩ := mem_map.mp hkey
    simpa using hnone group hgroup)
  have hnil : (documentTerms analyze previous).filter (fun group =>
      decide (group.1 ∉ (documentTerms analyze previous).map Prod.fst)) = [] := by
    rw [filter_eq_nil_iff]
    intro group hgroup
    simpa using ⟨group.2,hgroup⟩
  rw [hnil] at hholds
  have hcleared : Holds (removed.clearLengths before.length) (contentOf (before++[]::after)) :=
    hholds.congr rfl rfl rfl
  obtain ⟨last,hfold,hlast,hrows'⟩ := hcleared.accumulateFields analyze
    replacement.fields .insert (documentTerms_nodup analyze hdistinct') nofun
  rw [hremoved,ok_bind,hfold,ok_bind] at hnext
  obtain rfl := Except.ok.inj hnext
  refine ⟨?_,?_⟩
  · rw [set_append_right _ _ (Nat.le_refl _),Nat.sub_self,set_cons_zero]
    exact hlast.congr rfl rfl rfl
  · have hcount:=h.rowCount
    simp only [SegmentIndex.padLengthsTo,hrows',SegmentIndex.clearLengths,hrows,length_set]
    exact hcount

theorem Indexes.postingList_eq {index index' : SegmentIndex}
    (h : Indexes index rows) (h' : Indexes index' rows) (term : String) (field : FieldId) :
    index.postingList term field = index'.postingList term field := by
  rw [h.holds.postingList,h'.holds.postingList]

end Analyzer

end Zeppelin.Fts
