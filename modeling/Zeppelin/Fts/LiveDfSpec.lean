import Zeppelin.Fts.LiveDf

namespace Zeppelin.Fts.LiveDf
open Segment List

theorem keyOf_length (term : Bytes) (fields : List FieldId) :
    (keyOf term fields).length = fields.length*2+term.length := by
  rw [keyOf,length_append,length_flatMap]
  simp only [toLe_length,map_const',sum_replicate_nat]
  omega

theorem chunksOf_fields (fields : List FieldId) :
    chunksOf 2 (fields.flatMap (toLe 2)) = fields.map (toLe 2) := by
  induction fields with
  | nil =>
    rw [chunksOf]
    rfl
  | cons field fields ih =>
    have hlength : (toLe 2 field).length = 2 := toLe_length 2 field
    have hne : ¬ (toLe 2 field++fields.flatMap (toLe 2) = [] ∨ (2 : ℕ) = 0) := by
      intro hnil
      rcases hnil with hnil | hzero
      · rw [(append_eq_nil_iff.mp hnil).1] at hlength
        cases hlength
      · cases hzero
    rw [flatMap_cons,chunksOf,if_neg hne,take_left' hlength,drop_left' hlength,
      ih,map_cons]

theorem zip_fields_all (stored fields : List FieldId) (h : stored.length = fields.length) :
    ((stored.map (toLe 2)).zip fields).all (fun pair => pair.1 = toLe 2 pair.2) =
      decide (stored = fields) := by
  induction stored generalizing fields with
  | nil =>
    cases fields with
    | nil => rfl
    | cons field fields => cases h
  | cons first stored ih =>
    cases fields with
    | nil => cases h
    | cons field fields =>
      rw [map_cons,zip_cons_cons,all_cons,ih fields (Nat.succ.inj h)]
      by_cases hfirst : first = field
      · simp [hfirst]
      · have hbytes : toLe 2 first ≠ toLe 2 field := fun hsame =>
          hfirst (toLe_inj 2 (by decide) hsame)
        simp [hfirst,hbytes]

inductive Layout (count : Bytes → List FieldId → ℕ) : ℕ → List Entry → Bytes → Prop
  | nil {offset : ℕ} : Layout count offset [] []
  | cons {offset : ℕ} {entry : Entry} {entries : List Entry} {keys term : Bytes}
      {fields : List FieldId} (start : entry.start = offset) (termLen : entry.termLen = term.length)
      (fieldsLen : entry.fieldsLen = fields.length) (frequency : entry.frequency = count term fields)
      (rest : Layout count (offset+entry.length) entries keys) :
      Layout count offset (entry::entries) (keyOf term fields++keys)

section Layout
variable {count : Bytes → List FieldId → ℕ} {offset : ℕ} {entries : List Entry} {keys : Bytes}
  {entry gone : Entry} {front term : Bytes} {fields : List FieldId} {slot : ℕ}

theorem Entry.agrees_iff {rest stored : Bytes}
    {storedFields : List FieldId} (start : entry.start = front.length)
    (termLen : entry.termLen = stored.length) (fieldsLen : entry.fieldsLen = storedFields.length) :
    entry.agrees (front++(keyOf stored storedFields++rest)) term fields =
      .ok (decide (stored = term ∧ storedFields = fields)) := by
  rw [Entry.agrees]
  by_cases hlengths : entry.termLen ≠ term.length ∨ entry.fieldsLen ≠ fields.length
  · rw [if_pos hlengths]
    have hne : ¬ (stored = term ∧ storedFields = fields) := by
      intro ⟨hterm,hfields⟩
      rw [termLen,fieldsLen,hterm,hfields] at hlengths
      exact hlengths.elim (fun h => h rfl) fun h => h rfl
    rw [decide_eq_false hne]
  · rw [if_neg hlengths]
    rw [not_or,not_not,not_not] at hlengths
    have hterm : slice? (front++(keyOf stored storedFields++rest)) entry.start
        (entry.start+entry.termLen) = some stored := by
      rw [keyOf,append_assoc]
      exact slice?_append start.symm (by rw [termLen])
    have hfields : slice? (front++(keyOf stored storedFields++rest))
        (entry.start+entry.termLen) (entry.start+entry.termLen+entry.fieldsLen*2) =
          some (storedFields.flatMap (toLe 2)) := by
      have hlength:=keyOf_length [] storedFields
      rw [keyOf,nil_append,length_nil] at hlength
      rw [keyOf,append_assoc,← append_assoc front]
      refine slice?_append ?_ ?_
      · rw [length_append,start,termLen]
      · rw [hlength,fieldsLen]
        omega
    rw [hterm,hfields]
    dsimp only
    by_cases hsame : stored = term
    · rw [if_neg (not_not.mpr hsame),chunksOf_fields,
        zip_fields_all _ _ (fieldsLen.symm.trans hlengths.2)]
      simp [hsame]
    · rw [if_pos hsame,decide_eq_false fun hboth => hsame hboth.1]

theorem Layout.findSlot (h : Layout count offset entries keys)
    (hfront : front.length = offset) (term : Bytes) (fields : List FieldId) :
    ∃ found,findSlot (front++keys) term fields entries = .ok found ∧
      ∀ slot ∈ found,∃ entry,entries[slot]? = some entry ∧
        entry.frequency = count term fields := by
  induction h generalizing front with
  | nil => exact ⟨none,rfl,nofun⟩
  | @cons offset entry entries keys stored storedFields start termLen fieldsLen frequency _ ih =>
    rw [LiveDf.findSlot,Entry.agrees_iff (start.trans hfront.symm) termLen fieldsLen]
    by_cases hsame : stored = term ∧ storedFields = fields
    · rw [decide_eq_true hsame]
      refine ⟨some 0,rfl,fun slot hslot => ?_⟩
      cases hslot
      exact ⟨entry,rfl,by rw [frequency,hsame.1,hsame.2]⟩
    · rw [decide_eq_false hsame]
      have hnext : (front++keyOf stored storedFields).length = offset+entry.length := by
        rw [length_append,keyOf_length,hfront,Entry.length,termLen,fieldsLen]
      obtain ⟨found,hfound,hall⟩ := ih hnext
      rw [append_assoc] at hfound
      refine ⟨found.map (· + 1),?_,fun slot hslot => ?_⟩
      · dsimp only
        rw [hfound]
        rfl
      · obtain ⟨previous,hprevious,rfl⟩ := Option.map_eq_some_iff.mp hslot
        exact hall previous hprevious

theorem Layout.set_used (h : Layout count offset entries keys)
    (hentry : entries[slot]? = some entry) (used : ℕ) :
    Layout count offset (entries.set slot { entry with used := used }) keys := by
  induction h generalizing slot with
  | nil => cases hentry
  | cons start termLen fieldsLen frequency rest ih =>
    cases slot with
    | zero =>
      cases hentry
      exact .cons start termLen fieldsLen frequency rest
    | succ slot => exact .cons start termLen fieldsLen frequency (ih hentry)

theorem Layout.append (h : Layout count offset entries keys)
    (start : entry.start = offset+keys.length)
    (termLen : entry.termLen = term.length) (fieldsLen : entry.fieldsLen = fields.length)
    (frequency : entry.frequency = count term fields) :
    Layout count offset (entries++[entry]) (keys++keyOf term fields) := by
  induction h with
  | nil =>
    have hlast : Layout count _ [entry] (keyOf term fields++[]) :=
      .cons start termLen fieldsLen frequency .nil
    rwa [append_nil] at hlast
  | @cons offset first entries keys stored storedFields hstart htermLen hfieldsLen hfrequency _ ih =>
    rw [cons_append,append_assoc]
    refine .cons hstart htermLen hfieldsLen hfrequency (ih ?_)
    rw [start,length_append,keyOf_length,Entry.length,htermLen,hfieldsLen]
    omega

theorem Entry.shift_length (gone other : Entry) : (gone.shift other).length = other.length := by
  rw [Entry.shift]
  split_ifs
  · rfl
  · rfl

theorem Layout.shift {first : ℕ} (h : Layout count first entries keys)
    (hfirst : first = offset+gone.length) (hstop : gone.stop ≤ first) :
    Layout count offset (entries.map gone.shift) keys := by
  induction h generalizing offset with
  | nil => exact .nil
  | @cons first entry entries keys stored storedFields start termLen fieldsLen frequency _ ih =>
    have hmoves : gone.shift entry = { entry with start := entry.start-gone.length } :=
      if_pos (start ▸ hstop)
    rw [map_cons]
    refine .cons ?_ ?_ ?_ ?_ (ih ?_ (by omega))
    · rw [hmoves]
      dsimp only
      omega
    · rw [hmoves]
      exact termLen
    · rw [hmoves]
      exact fieldsLen
    · rw [hmoves]
      exact frequency
    · rw [Entry.shift_length]
      omega

theorem Layout.erase (h : Layout count offset entries keys) (hgone : entries[slot]? = some gone) :
    ∃ left key right,keys = left++(key++right) ∧ gone.start = offset+left.length ∧
      key.length = gone.length ∧
        Layout count offset ((entries.eraseIdx slot).map gone.shift) (left++right) := by
  induction h generalizing slot with
  | nil => cases hgone
  | @cons offset entry entries keys stored storedFields start termLen fieldsLen frequency rest ih =>
    have hlength : (keyOf stored storedFields).length = entry.length := by
      rw [keyOf_length,Entry.length,termLen,fieldsLen]
    cases slot with
    | zero =>
      cases hgone
      refine ⟨[],keyOf stored storedFields,keys,rfl,by rw [start]; rfl,hlength,?_⟩
      rw [eraseIdx_zero,tail_cons,nil_append]
      refine rest.shift rfl ?_
      rw [Entry.stop,start]
    | succ slot =>
      obtain ⟨left,key,right,hkeys,hstart,hkey,hlayout⟩ := ih hgone
      -- an entry before the one that goes can only lie behind it when that key is empty
      have hstays : gone.shift entry = entry := by
        rw [Entry.shift]
        split_ifs with hbehind
        · rw [Entry.stop] at hbehind
          have hzero : gone.length = 0 := by omega
          rw [hzero]
          rfl
        · rfl
      refine ⟨keyOf stored storedFields++left,key,right,?_,?_,hkey,?_⟩
      · rw [hkeys,append_assoc]
      · rw [length_append,hlength,hstart]
        omega
      · rw [eraseIdx_cons_succ,map_cons,hstays,append_assoc]
        exact .cons start termLen fieldsLen frequency hlayout

theorem leastUsed_some (hne : entries ≠ []) :
    ∃ slot entry,leastUsed entries = some slot ∧ entries[slot]? = some entry := by
  rw [leastUsed]
  cases hleast : entries.zipIdx.argmin fun slot => slot.1.used with
  | none =>
    rw [argmin_eq_none,zipIdx_eq_nil_iff] at hleast
    exact absurd hleast hne
  | some pair =>
    have hmem:=argmin_mem hleast
    exact ⟨pair.2,pair.1,rfl,mem_zipIdx_iff_getElem?.mp hmem⟩

end Layout

structure Table.Inv (count : Bytes → List FieldId → ℕ) (table : Table) : Prop where
  layout : Layout count 0 table.entries table.keys
  entries : table.entries.length ≤ maxEntries
  keys : table.keys.length ≤ maxKeyBytes

def Tiles : ℕ → List Entry → ℕ → Prop
  | offset,[],stop => offset = stop
  | offset,entry::entries,stop => entry.start = offset ∧ Tiles entry.stop entries stop

theorem Layout.tiles {count : Bytes → List FieldId → ℕ} {offset : ℕ} {entries : List Entry}
    {keys : Bytes} (h : Layout count offset entries keys) :
    Tiles offset entries (offset+keys.length) := by
  induction h with
  | nil => rfl
  | @cons offset entry entries keys stored storedFields start termLen fieldsLen _ _ ih =>
    refine ⟨start,?_⟩
    rw [length_append,keyOf_length,Entry.stop,start,← Nat.add_assoc,← fieldsLen,
      ← termLen]
    exact ih

def Table.evictions : ℕ → Table → Except CacheError Table
  | 0,table => .ok table
  | count+1,table => table.evict >>= Table.evictions count

section Table
variable {count : Bytes → List FieldId → ℕ} {table : Table}

theorem Table.Inv.new (count : Bytes → List FieldId → ℕ) : Table.new.Inv count :=
  ⟨.nil,Nat.zero_le _,Nat.zero_le _⟩

theorem Table.Inv.evict (h : table.Inv count) (hne : table.entries ≠ []) :
    ∃ smaller,table.evict = .ok smaller ∧ smaller.Inv count ∧
      smaller.entries.length+1 = table.entries.length := by
  obtain ⟨slot,entry,hslot,hentry⟩ := leastUsed_some hne
  obtain ⟨left,key,right,hkeys,hstart,hkey,hlayout⟩ := h.layout.erase hentry
  obtain ⟨hlt,-⟩ := List.getElem?_eq_some_iff.mp hentry
  rw [Nat.zero_add] at hstart
  have hstop : entry.stop = (left++key).length := by
    rw [Entry.stop,length_append,hstart,hkey]
  have hrest : table.keys.take entry.start++table.keys.drop entry.stop = left++right := by
    rw [hkeys,take_left' hstart.symm,← append_assoc,drop_left' hstop.symm]
  have hbound : ¬ table.keys.length < entry.stop := by
    rw [hkeys,hstop]
    simp only [length_append]
    omega
  have hevict : table.evict = .ok { table with
      entries := (table.entries.eraseIdx slot).map entry.shift
      keys := table.keys.take entry.start++table.keys.drop entry.stop } := by
    rw [Table.evict,hslot]
    dsimp only
    rw [hentry]
    exact if_neg hbound
  have hentries : ((table.entries.eraseIdx slot).map entry.shift).length+1 =
      table.entries.length := by
    rw [length_map,length_eraseIdx_of_lt hlt]
    omega
  rw [hrest] at hevict
  have hmax:=h.entries
  have hmaxKeys:=h.keys
  rw [hkeys] at hmaxKeys
  simp only [length_append] at hmaxKeys
  exact ⟨_,hevict,⟨hlayout,by dsimp only; omega,by dsimp only; simp; omega⟩,hentries⟩

theorem Table.Inv.makeRoom (h : table.Inv count) {length : ℕ} (hlength : length ≤ maxKeyBytes) :
    ∃ n ≤ table.entries.length,∃ room,table.evictions n = .ok room ∧
      table.makeRoom length = (.ok (),room) ∧ room.Inv count ∧
        room.entries.length < maxEntries ∧ room.keys.length+length ≤ maxKeyBytes := by
  induction hsize : table.entries.length generalizing table with
  | zero =>
    have hnil:=length_eq_zero_iff.mp hsize
    have hkeys : table.keys = [] := by
      have htiles:=h.layout.tiles
      rw [hnil,Tiles,Nat.zero_add] at htiles
      exact length_eq_zero_iff.mp htiles.symm
    have hroom : ¬ (table.entries.length = maxEntries ∨
        maxKeyBytes-length < table.keys.length) := by
      rw [hnil,hkeys]
      exact not_or.mpr ⟨by decide,Nat.not_lt_zero _⟩
    refine ⟨0,Nat.le_refl _,table,rfl,?_,h,?_,?_⟩
    · rw [Table.makeRoom,if_neg hroom]
    · rw [hnil]
      decide
    · rw [hkeys]
      simpa using hlength
  | succ size ih =>
    by_cases hfull : table.entries.length = maxEntries ∨
        maxKeyBytes-length < table.keys.length
    · have hne : table.entries ≠ [] := by
        intro hnil
        rw [hnil] at hsize
        cases hsize
      obtain ⟨smaller,hevict,hinv,hless⟩ := h.evict hne
      obtain ⟨n,hn,room,hevictions,hmake,hroom⟩ := ih hinv (by omega)
      refine ⟨n+1,by omega,room,?_,?_,hroom⟩
      · rw [Table.evictions,hevict]
        exact hevictions
      · rw [Table.makeRoom,if_pos hfull]
        split
        · rename_i e herror
          rw [hevict] at herror
          cases herror
        · rename_i other hother
          rw [hevict] at hother
          cases hother
          exact hmake
    · refine ⟨0,Nat.zero_le _,table,rfl,?_,h,?_,?_⟩
      · rw [Table.makeRoom,if_neg hfull]
      · have hmax:=h.entries
        omega
      · omega

end Table

section Lookups
variable {ε : Type} {s : SealedSegment} (h : s.Indexed) (live : Finset ℕ) (l : Lookup ε)
include h

structure Answers (s : SealedSegment) (live : Finset ℕ) (l : Lookup ε) (table : Table)
    (result : Except (LookupError ε) ℕ × Table) : Prop where
  inv : result.2.Inv (s.liveCount live)
  value : ∀ frequency,result.1 = .ok frequency → frequency = s.liveCount live l.term l.fields
  stopped : ∀ error,result.1 = .error error →
    (∃ e call,error = .control e ∧ l.check call = .error e) ∧
      result.2.entries = table.entries ∧ result.2.keys = table.keys

omit h in
theorem calls_beforeTable : Calls l.check (beforeTable s live l) := by
  refine calls_checkNow.bind fun _ => ?_
  split
  · exact .pure _
  · split_ifs
    · exact (calls_count s live l.term l.fields).map some
    · exact (calls_checkNow.repeated _).bind fun _ => calls_checkNow.bind fun _ => .pure none

theorem beforeTable_ok {work after : WorkCheck} {answer : Option ℕ}
    (hbefore : beforeTable s live l work = .ok (answer,after)) :
    (∀ frequency,answer = some frequency → frequency = s.liveCount live l.term l.fields) ∧
      (answer = none → l.keyBytes ≤ maxKeyBytes) := by
  obtain ⟨first,-,hbefore⟩ := bind_eq_ok hbefore
  dsimp only at hbefore
  cases hsingle : s.singlePostingLiveFrequency live l.term l.fields with
  | some frequency =>
    rw [hsingle] at hbefore
    cases hbefore
    refine ⟨fun found hfound => ?_,nofun⟩
    cases hfound
    exact singlePosting_eq h hsingle
  | none =>
    rw [hsingle] at hbefore
    dsimp only at hbefore
    split_ifs at hbefore with hlong
    · rw [map_eq_pure_bind] at hbefore
      obtain ⟨counted,hcounted,hret⟩ := bind_eq_ok hbefore
      cases hret
      refine ⟨fun found hfound => ?_,nofun⟩
      cases hfound
      exact liveDocumentFrequency_returns h live l.term l.fields _ _ hcounted
    · obtain ⟨second,-,hbefore⟩ := bind_eq_ok hbefore
      obtain ⟨third,-,hret⟩ := bind_eq_ok hbefore
      cases hret
      exact ⟨nofun,fun _ => Nat.le_of_not_lt hlong⟩

theorem fillTable_answers {table : Table} (hinv : table.Inv (s.liveCount live))
    (hkey : l.keyBytes ≤ maxKeyBytes) (work : WorkCheck) :
    Answers s live l table (fillTable s live l work table) := by
  rw [fillTable]
  cases hcount : s.liveDocumentFrequencyControlled l.check live l.term l.fields work with
  | error e =>
    refine ⟨hinv,nofun,fun error herror => ?_⟩
    cases herror
    obtain ⟨call,hcall⟩ := calls_count s live l.term l.fields work e hcount
    exact ⟨⟨e,call,rfl,hcall⟩,rfl,rfl⟩
  | ok result =>
    obtain ⟨frequency,after⟩ := result
    have hvalue : frequency = s.liveCount live l.term l.fields :=
      liveDocumentFrequency_returns h live l.term l.fields _ _ hcount
    obtain ⟨-,-,room,-,hmake,hroom,hentries,hkeys⟩ := hinv.makeRoom hkey
    rw [hmake]
    refine ⟨⟨?_,?_,?_⟩,fun found hfound => ?_,nofun⟩
    · exact hroom.layout.append (Nat.zero_add _).symm rfl rfl hvalue
    · simpa using hentries
    · rw [Lookup.keyBytes] at hkeys
      rw [length_append,keyOf_length]
      exact hkeys
    · cases hfound
      exact hvalue

theorem frequencyInner_answers {table : Table} (hinv : table.Inv (s.liveCount live)) :
    Answers s live l table (frequencyInner s live l table) := by
  rw [frequencyInner]
  cases hbefore : beforeTable s live l ⟨0,64⟩ with
  | error e =>
    refine ⟨hinv,nofun,fun error herror => ?_⟩
    cases herror
    obtain ⟨call,hcall⟩ := calls_beforeTable live l _ e hbefore
    exact ⟨⟨e,call,rfl,hcall⟩,rfl,rfl⟩
  | ok result =>
    obtain ⟨answer,work⟩ := result
    obtain ⟨hvalue,hkey⟩ := beforeTable_ok h live l hbefore
    cases answer with
    | some frequency =>
      refine ⟨hinv,fun found hfound => ?_,nofun⟩
      cases hfound
      exact hvalue frequency rfl
    | none =>
      -- the clock is no part of what holds
      have hticked : ({ table with clock := min (table.clock+1) u64Max } : Table).Inv
          (s.liveCount live) := ⟨hinv.layout,hinv.entries,hinv.keys⟩
      obtain ⟨found,hfound,hall⟩ := hinv.layout.findSlot (rfl : [].length = 0) l.term l.fields
      rw [nil_append] at hfound
      dsimp only
      rw [lookupTable,hfound]
      cases found with
      | none =>
        obtain ⟨hroom,hvalue,hstopped⟩ := fillTable_answers h live l hticked (hkey rfl) work
        exact ⟨hroom,hvalue,hstopped⟩
      | some slot =>
        obtain ⟨entry,hentry,hfrequency⟩ := hall slot rfl
        dsimp only
        rw [hentry]
        refine ⟨⟨hinv.layout.set_used hentry _,?_,hinv.keys⟩,fun found hfound => ?_,nofun⟩
        · rw [length_set]
          exact hinv.entries
        · cases hfound
          exact hfrequency

end Lookups

inductive Reachable (s : SealedSegment) (live : Finset ℕ) : Table → Prop
  | new : Reachable s live Table.new
  | lookup {ε : Type} {table : Table} (l : Lookup ε) (h : Reachable s live table) :
      Reachable s live (frequencyInner s live l table).2

theorem Reachable.inv {s : SealedSegment} (h : s.Indexed) {live : Finset ℕ} {table : Table}
    (hreach : Reachable s live table) : table.Inv (s.liveCount live) := by
  induction hreach with
  | new => exact .new _
  | lookup l _ ih => exact (frequencyInner_answers h live l ih).inv

/-- In every run of lookups a returned value is the live count, a stopped lookup changes no entry,
the key spans tile the arena within its bounds, and the eviction loop ends. -/
theorem live_frequency_transparent {s : SealedSegment} (h : s.Indexed) {live : Finset ℕ}
    {table : Table} (hreach : Reachable s live table) :
    (∀ (ε : Type) (l : Lookup ε),
      (∀ frequency,(frequencyInner s live l table).1 = .ok frequency →
        frequency = s.liveCount live l.term l.fields) ∧
      (∀ error,(frequencyInner s live l table).1 = .error error →
        (∃ e call,error = .control e ∧ l.check call = .error e) ∧
          (frequencyInner s live l table).2.entries = table.entries ∧
            (frequencyInner s live l table).2.keys = table.keys)) ∧
      Tiles 0 table.entries table.keys.length ∧ table.entries.length ≤ maxEntries ∧
        table.keys.length ≤ maxKeyBytes ∧
          ∀ length ≤ maxKeyBytes,∃ n ≤ table.entries.length,∃ room,
            table.evictions n = .ok room ∧ table.makeRoom length = (.ok (),room) ∧
              room.entries.length < maxEntries ∧ room.keys.length+length ≤ maxKeyBytes := by
  have hinv:=hreach.inv h
  refine ⟨fun ε l => ?_,?_,hinv.entries,hinv.keys,fun length hlength => ?_⟩
  · have hanswers:=frequencyInner_answers h live l hinv
    exact ⟨hanswers.value,hanswers.stopped⟩
  · have htiles:=hinv.layout.tiles
    rwa [Nat.zero_add] at htiles
  · obtain ⟨n,hn,room,hevictions,hmake,-,hentries,hkeys⟩ := hinv.makeRoom hlength
    exact ⟨n,hn,room,hevictions,hmake,hentries,hkeys⟩

def heapRows : SealedSegment :=
  ⟨[⟨"heap",0,[⟨[(0,2),(1,1)],1,⟨2,5⟩⟩],⟨2,5⟩⟩],[(0,[5,5])],2⟩

theorem heapRows_indexed : heapRows.Indexed := by
  refine ⟨⟨fun span hspan => ?_,by decide⟩,pairwise_singleton ..⟩
  rw [mem_singleton.mp hspan]
  refine ⟨by decide,fun b hb => ?_,by decide,by decide⟩
  rw [mem_singleton.mp hb]
  exact ⟨by decide,by decide,by decide,by decide,by decide⟩

def heapLookup : Lookup Unit := ⟨utf8Bytes "heap",[0],fun _ => .ok (),0⟩

/-- The second lookup reads the entry of the first. -/
theorem live_frequency_transparent_at_heap :
    (frequencyInner heapRows {0} heapLookup
      (frequencyInner heapRows {0} heapLookup Table.new).2).1 =
        .ok (heapRows.liveCount {0} heapLookup.term heapLookup.fields) := by
  have hok : (frequencyInner heapRows {0} heapLookup
      (frequencyInner heapRows {0} heapLookup Table.new).2).1 = .ok 1 := by
    decide +kernel
  have hreach : Reachable heapRows {0} (frequencyInner heapRows {0} heapLookup Table.new).2 :=
    .lookup heapLookup .new
  obtain ⟨hvalue,-⟩ := (live_frequency_transparent heapRows_indexed hreach).1 Unit heapLookup
  rw [hok,← hvalue 1 hok]

end Zeppelin.Fts.LiveDf
