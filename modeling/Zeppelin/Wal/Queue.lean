import Zeppelin.Wal.Staging

namespace Zeppelin.Wal
open List

def segment (encoded : Bytes) (start stop : ℕ) : Bytes := (encoded.drop start).take (stop-start)

variable {encoded b : Bytes} {start stop n r : ℕ} {g : Group} {l : Option LogSeq}

theorem segment_length (h : stop ≤ encoded.length) :
    (segment encoded start stop).length = stop-start := by
  simp only [segment,length_take,length_drop]
  omega

theorem segment_append (encoded : Bytes) {a b c : ℕ} (hab : a ≤ b) (hbc : b ≤ c) :
    segment encoded a b++segment encoded b c = segment encoded a c := by
  have hb : b = a+(b-a) := by omega
  have hc : c-a = (b-a)+(c-b) := by omega
  rw [segment,segment,segment,hc,take_add,drop_drop,← hb]

theorem segment_self (encoded : Bytes) (a : ℕ) : segment encoded a a = [] := by
  simp [segment]

theorem segment_all (encoded : Bytes) : segment encoded 0 encoded.length = encoded := by
  simp [segment]

theorem chunk_bytes (h1 : start ≤ stop) (h2 : stop ≤ encoded.length) :
    EncodedChunk.bytes ⟨encoded,start,stop⟩ = some (segment encoded start stop) :=
  slice?_eq_some h1 h2

theorem content_chunks :
    Group.content ⟨g.chunks,n,r,l⟩ = g.content := rfl

theorem content_append_chunk {e : Bytes} {c : EncodedChunk}
    (hg : g.content = some b) (hc : c.bytes = some e) :
    Group.content ⟨g.chunks++[c],n,r,l⟩ = some (b++e) := by
  simp only [Group.content,Option.map_eq_some_iff] at hg
  obtain ⟨parts,hparts,rfl⟩ := hg
  simp [Group.content,hparts,hc]

theorem content_openChunk
    (hg : g.content = some b) (h1 : start ≤ stop) (h2 : stop ≤ encoded.length) :
    Group.content ⟨g.chunks++openChunk encoded start stop,n,r,l⟩ =
      some (b++segment encoded start stop) := by
  by_cases hlt : start < stop
  · simp only [openChunk,if_pos hlt]
    exact content_append_chunk hg (chunk_bytes h1 h2)
  · obtain rfl : start = stop := by omega
    simp only [openChunk,if_neg hlt,append_nil,segment_self,content_chunks,hg]

def queueBytes (gs : List Group) : Bytes := gs.flatMap fun g => g.content.getD []

@[simp] theorem queueBytes_nil : queueBytes [] = [] := rfl

@[simp] theorem queueBytes_append (gs hs : List Group) :
    queueBytes (gs++hs) = queueBytes gs++queueBytes hs := by
  simp [queueBytes]

theorem queueBytes_cons {gs : List Group} (h : g.content = some b) :
    queueBytes (g::gs) = b++queueBytes gs := by
  simp [queueBytes,h]

theorem queueBytes_singleton (h : g.content = some b) : queueBytes [g] = b := by
  rw [queueBytes_cons h,queueBytes_nil,append_nil]

section Along
variable (bound : GroupBound) (Ends : LogSeq → ℕ → Prop)

/-- The groups start at log position `pos`; `Ends l p` says that the record with
sequence `l` ends at or before position `p`. -/
def Queued : ℕ → List Group → Prop
  | _,[] => True
  | pos,g::gs => ∃ b,g.content = some b ∧ g.encodedBytes ≤ bound.bytes ∧
      (∀ l,g.lastSeq = some l → Ends l (pos+b.length)) ∧ Queued (pos+b.length) gs

variable {bound Ends}

theorem queued_append {pos : ℕ} {gs hs : List Group} :
    Queued bound Ends pos (gs++hs) ↔
      Queued bound Ends pos gs ∧ Queued bound Ends (pos+(queueBytes gs).length) hs := by
  induction gs generalizing pos with
  | nil => simp [Queued]
  | cons g gs ih =>
    constructor
    · rintro ⟨b,hb,hle,hl,hrest⟩
      obtain ⟨h1,h2⟩ := ih.mp hrest
      refine ⟨⟨b,hb,hle,hl,h1⟩,?_⟩
      rw [queueBytes_cons hb,length_append,← Nat.add_assoc]
      exact h2
    · rintro ⟨⟨b,hb,hle,hl,h1⟩,h2⟩
      rw [queueBytes_cons hb,length_append,← Nat.add_assoc] at h2
      exact ⟨b,hb,hle,hl,ih.mpr ⟨h1,h2⟩⟩

theorem queued_singleton {pos : ℕ} {g : Group} {b : Bytes} (hb : g.content = some b)
    (hle : g.encodedBytes ≤ bound.bytes) (hl : ∀ l,g.lastSeq = some l → Ends l (pos+b.length)) :
    Queued bound Ends pos [g] :=
  ⟨b,hb,hle,hl,trivial⟩

theorem queued_concat {pos : ℕ} {front : List Group} {g : Group}
    (h : Queued bound Ends pos (front++[g])) :
    Queued bound Ends pos front ∧ ∃ b,g.content = some b ∧ g.encodedBytes ≤ bound.bytes ∧
      ∀ l,g.lastSeq = some l → Ends l (pos+(queueBytes front).length+b.length) := by
  obtain ⟨hfront,b,hb,hle,hl,-⟩ := queued_append.mp h
  exact ⟨hfront,b,hb,hle,hl⟩

variable (Ends) in
/-- The records of a batch whose first byte stands at log position `base`: each
ends where its frame ends. -/
def BatchEnds (base : ℕ) : LogSeq → ℕ → List (U16 × ℕ) → Prop
  | _,_,[] => True
  | seq,offset,(_,len)::rs =>
    Ends seq (base+(offset+len)) ∧ BatchEnds base (saturatingAdd seq 1) (offset+len) rs

def totalLength (ls : List (U16 × ℕ)) : ℕ := (ls.map (·.2)).sum

/-- The state of the splitting loop along the log: the placed bytes are those of
the queue followed by the chunk not yet closed, and they end at the cursor. -/
structure Placed (bound : GroupBound) (Ends : LogSeq → ℕ → Prop) (pos base : ℕ) (encoded : Bytes)
    (cur : SplitCursor) (st : WriterState) (front : List Group) (g : Group) (b : Bytes) : Prop where
  queue : st.pendingGroups = front++[g]
  spare : st.spareChunks = []
  along : Queued bound Ends pos front
  content : g.content = some b
  le_bound : g.encodedBytes ≤ bound.bytes
  start_le : cur.chunkStart ≤ cur.offset
  position : pos+(queueBytes front).length+b.length+(cur.offset-cur.chunkStart) =
    base+cur.offset
  last : ∀ l,g.lastSeq = some l → Ends l (base+cur.offset)

theorem splitBatch_queued (hmono : ∀ l p q,Ends l p → p ≤ q → Ends l q) {pos base : ℕ}
    {encoded : Bytes} (seq : LogSeq) (ls : List (U16 × ℕ)) (cur : SplitCursor) (st : WriterState)
    (front : List Group) (g : Group) (b : Bytes)
    (h : Placed bound Ends pos base encoded cur st front g b)
    (hends : BatchEnds Ends base seq cur.offset ls)
    (hls : ∀ r ∈ ls,0 < r.2 ∧ r.2 ≤ bound.bytes)
    (hlen : cur.offset+totalLength ls ≤ encoded.length) :
    ∃ cur' st' front' g' b',splitBatch bound encoded seq ls cur st = (.ok cur',st') ∧
      Placed bound Ends pos base encoded cur' st' front' g' b' ∧
      cur'.offset = cur.offset+totalLength ls ∧
      queueBytes front'++b'++segment encoded cur'.chunkStart cur'.offset =
        queueBytes front++b++segment encoded cur.chunkStart cur'.offset := by
  induction ls generalizing seq cur st front g b with
  | nil => exact ⟨cur,st,front,g,b,rfl,h,by simp [totalLength],rfl⟩
  | cons r rs ih =>
    obtain ⟨op,len⟩ := r
    obtain ⟨hpos,hle⟩ := hls (op,len) (mem_cons_self ..)
    simp only at hpos hle
    obtain ⟨hend,hends⟩ := hends
    have hrs : ∀ r ∈ rs,0 < r.2 ∧ r.2 ≤ bound.bytes := fun r hr => hls r (mem_cons_of_mem _ hr)
    have htotal : totalLength ((op,len)::rs) = len+totalLength rs := by simp [totalLength]
    rw [htotal] at hlen ⊢
    have hposn:=h.position
    have hstart:=h.start_le
    by_cases hfit : g.encodedBytes+len ≤ bound.bytes
    · have hplaced : Placed bound Ends pos base encoded ⟨cur.offset+len,cur.chunkStart⟩
          (placedState encoded seq op len cur.offset
            (front++[⟨g.chunks,g.encodedBytes+len,g.records+1,some seq⟩])
            st.spareChunks st) front ⟨g.chunks,g.encodedBytes+len,g.records+1,some seq⟩ b :=
        { queue := rfl
          spare := h.spare
          along := h.along
          content := h.content
          le_bound := hfit
          start_le := by dsimp only; omega
          position := by dsimp only; omega
          last := by
            intro l hl
            rw [← Option.some.inj hl]
            exact hend }
      obtain ⟨cur',st',front',g',b',hrun,hplaced',hoff,hbytes⟩ :=
        ih _ _ _ _ _ _ hplaced hends hrs (by dsimp only; omega)
      refine ⟨cur',st',front',g',b',?_,hplaced',by dsimp only at hoff; omega,hbytes⟩
      rw [splitBatch_cons_fits bound encoded seq op len rs cur st front g h.queue hpos hfit]
      exact hrun
    · -- the back group is filled up to the bound and closed
      have hcut : cur.offset+(bound.bytes-g.encodedBytes) ≤ encoded.length := by omega
      have hroom:=h.le_bound
      have hclosed:=content_openChunk (n := bound.bytes) (r := g.records) (l := g.lastSeq)
        h.content (show cur.chunkStart ≤ cur.offset+(bound.bytes-g.encodedBytes) by omega) hcut
      have hplaced : Placed bound Ends pos base encoded
          ⟨cur.offset+len,cur.offset+(bound.bytes-g.encodedBytes)⟩
          (placedState encoded seq op len cur.offset
            (front++[⟨g.chunks++openChunk encoded cur.chunkStart
              (cur.offset+(bound.bytes-g.encodedBytes)),bound.bytes,g.records,g.lastSeq⟩]++
              [⟨st.spareChunks,len-(bound.bytes-g.encodedBytes),1,some seq⟩]) [] st)
          (front++[⟨g.chunks++openChunk encoded cur.chunkStart
            (cur.offset+(bound.bytes-g.encodedBytes)),bound.bytes,g.records,g.lastSeq⟩])
          ⟨st.spareChunks,len-(bound.bytes-g.encodedBytes),1,some seq⟩ [] :=
        { queue := rfl
          spare := rfl
          along := by
            refine queued_append.mpr ⟨h.along,queued_singleton hclosed le_rfl fun l hl => ?_⟩
            refine hmono l _ _ (h.last l hl) ?_
            rw [length_append,segment_length hcut]
            omega
          content := by rw [h.spare]; rfl
          le_bound := by dsimp only; omega
          start_le := by dsimp only; omega
          position := by
            rw [queueBytes_append,queueBytes_singleton hclosed,length_append,
              length_append,segment_length hcut]
            dsimp only
            simp only [length_nil]
            omega
          last := by
            intro l hl
            rw [← Option.some.inj hl]
            exact hend }
      obtain ⟨cur',st',front',g',b',hrun,hplaced',hoff,hbytes⟩ :=
        ih _ _ _ _ _ _ hplaced hends hrs (by dsimp only; omega)
      refine ⟨cur',st',front',g',b',?_,hplaced',by dsimp only at hoff; omega,?_⟩
      · rw [splitBatch_cons_splits bound encoded seq op len rs cur st front g h.queue h.le_bound
          (by omega) hle]
        exact hrun
      · rw [hbytes,queueBytes_append,queueBytes_singleton hclosed,append_nil]
        simp only [append_assoc]
        rw [segment_append encoded (by omega) (by dsimp only at hoff; omega)]

end Along

end Zeppelin.Wal
