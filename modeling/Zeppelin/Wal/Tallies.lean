import Zeppelin.Wal.Durability

/-! wal/mod.rs -/

namespace Zeppelin.Wal
open List

structure Mark where
  seq : LogSeq
  stop : ℕ
  deriving DecidableEq

/-- The records whose last byte lies behind `start` and not behind `stop`. -/
def marksIn (marks : List Mark) (start stop : ℕ) : List Mark :=
  marks.filter fun mark => start < mark.stop ∧ mark.stop ≤ stop

def chunkBytes (chunks : List EncodedChunk) : ℕ := (chunks.map fun c => c.stop-c.start).sum

def pendingBytes (gs : List Group) : ℕ := (gs.map Group.encodedBytes).sum

structure Counts (marks : List Mark) (pos : ℕ) (g : Group) : Prop where
  records : g.records = (marksIn marks pos (pos+g.encodedBytes)).length
  last : g.lastSeq = (marksIn marks pos (pos+g.encodedBytes)).getLast?.map Mark.seq

structure Tally (bound : GroupBound) (marks : List Mark) (pos : ℕ) (g : Group) : Prop
    extends Counts marks pos g where
  content : ∃ b,g.content = some b
  bytes : g.encodedBytes = chunkBytes g.chunks
  le_bound : g.encodedBytes ≤ bound.bytes

def Tallies (bound : GroupBound) (marks : List Mark) : ℕ → List Group → Prop
  | _,[] => True
  | pos,g::gs => Tally bound marks pos g ∧ Tallies bound marks (pos+g.encodedBytes) gs

/-- Well-formed pending groups. Only the last one may have no record yet: the header, or an empty
group. -/
structure PendingWf (bound : GroupBound) (marks : List Mark) (st : WriterState) : Prop where
  tallies : Tallies bound marks 0 st.pendingGroups
  full : ∀ g ∈ st.pendingGroups.dropLast,g.records ≠ 0
  spare : st.spareChunks = []
  ascending : marks.Pairwise fun m n => m.stop < n.stop
  within : ∀ m ∈ marks,0 < m.stop ∧ m.stop ≤ pendingBytes st.pendingGroups

section Marks
variable {marks : List Mark} {mark : Mark} {start stop : ℕ}

theorem marksIn_append (marks more : List Mark) (start stop : ℕ) :
    marksIn (marks++more) start stop = marksIn marks start stop++marksIn more start stop :=
  filter_append ..

theorem marksIn_above (h : stop < mark.stop) : marksIn [mark] start stop = [] := by
  simp [marksIn,Nat.not_le.mpr h]

theorem marksIn_inside (h1 : start < mark.stop) (h2 : mark.stop ≤ stop) :
    marksIn [mark] start stop = [mark] := by
  simp [marksIn,h1,h2]

theorem marksIn_below (h : ∀ m ∈ marks,m.stop ≤ start) : marksIn marks start stop = [] := by
  rw [marksIn,filter_eq_nil_iff]
  intro m hm
  have hle:=h m hm
  simp only [decide_eq_true_eq,not_and]
  omega

theorem marksIn_extend {stop' : ℕ} (hle : stop ≤ stop') (h : ∀ m ∈ marks,m.stop ≤ stop) :
    marksIn marks start stop' = marksIn marks start stop := by
  apply filter_congr
  intro m hm
  have hm:=h m hm
  simp only [decide_eq_decide]
  omega

end Marks

theorem mapM_bytes_length {chunks : List EncodedChunk} {parts : List Bytes}
    (h : chunks.mapM EncodedChunk.bytes = some parts) :
    parts.flatten.length = chunkBytes chunks := by
  induction chunks generalizing parts with
  | nil =>
    simp only [mapM_nil,Option.pure_def,Option.some.injEq] at h
    rw [← h]
    rfl
  | cons c chunks ih =>
    simp only [mapM_cons,Option.bind_eq_bind,Option.pure_def,Option.bind_eq_some_iff,
      Option.some.injEq] at h
    obtain ⟨first,hfirst,rest,hrest,rfl⟩ := h
    rw [flatten_cons,length_append,slice?_length hfirst,ih hrest,chunkBytes,
      chunkBytes,map_cons,sum_cons]

theorem content_length {g : Group} {b : Bytes} (h : g.content = some b) :
    b.length = chunkBytes g.chunks := by
  obtain ⟨parts,hparts,rfl⟩ := Option.map_eq_some_iff.mp h
  exact mapM_bytes_length hparts

section Tallies
variable {bound : GroupBound} {marks : List Mark} {pos : ℕ}

theorem tallies_append {gs hs : List Group} : Tallies bound marks pos (gs++hs) ↔
    Tallies bound marks pos gs ∧ Tallies bound marks (pos+pendingBytes gs) hs := by
  induction gs generalizing pos with
  | nil => simp [Tallies,pendingBytes]
  | cons g gs ih =>
    have hbytes : pendingBytes (g::gs) = g.encodedBytes+pendingBytes gs := rfl
    rw [cons_append,Tallies,Tallies,ih,hbytes,← Nat.add_assoc,and_assoc]

theorem pendingBytes_concat (gs : List Group) (g : Group) :
    pendingBytes (gs++[g]) = pendingBytes gs+g.encodedBytes := by
  simp [pendingBytes]

theorem Tallies.mark {gs : List Group} {mark : Mark} (h : Tallies bound marks pos gs)
    (hmark : pos+pendingBytes gs < mark.stop) : Tallies bound (marks++[mark]) pos gs := by
  induction gs generalizing pos with
  | nil => trivial
  | cons g gs ih =>
    have hbytes : pendingBytes (g::gs) = g.encodedBytes+pendingBytes gs := rfl
    rw [hbytes] at hmark
    obtain ⟨htally,hrest⟩ := h
    have hsame : marksIn (marks++[mark]) pos (pos+g.encodedBytes) =
        marksIn marks pos (pos+g.encodedBytes) := by
      rw [marksIn_append,marksIn_above (by omega),append_nil]
    refine ⟨⟨⟨?_,?_⟩,htally.content,htally.bytes,htally.le_bound⟩,ih hrest (by omega)⟩
    · rw [hsame]
      exact htally.records
    · rw [hsame]
      exact htally.last

/-- The state of the splitting loop: the groups in front are done; the last one counts what was
placed in it, and its chunks end where the open range starts. -/
structure Split (bound : GroupBound) (marks : List Mark) (cur : SplitCursor) (st : WriterState)
    (front : List Group) (g : Group) (b : Bytes) : Prop where
  queue : st.pendingGroups = front++[g]
  spare : st.spareChunks = []
  tallies : Tallies bound marks 0 front
  full : ∀ x ∈ front,x.records ≠ 0
  content : g.content = some b
  start_le : cur.chunkStart ≤ cur.offset
  bytes : g.encodedBytes = b.length+(cur.offset-cur.chunkStart)
  le_bound : g.encodedBytes ≤ bound.bytes
  counts : Counts marks (pendingBytes front) g
  ascending : marks.Pairwise fun m n => m.stop < n.stop
  within : ∀ m ∈ marks,0 < m.stop ∧ m.stop ≤ pendingBytes front+g.encodedBytes

def batchMarks : LogSeq → ℕ → List (U16 × ℕ) → List Mark
  | _,_,[] => []
  | seq,pos,(_,len)::rs =>
    ⟨seq,pos+len⟩::batchMarks (saturatingAdd seq 1) (pos+len) rs

theorem ascending_concat {mark : Mark} (h : marks.Pairwise fun m n => m.stop < n.stop)
    (hmark : ∀ m ∈ marks,m.stop < mark.stop) :
    (marks++[mark]).Pairwise fun m n => m.stop < n.stop := by
  rw [pairwise_append]
  refine ⟨h,pairwise_singleton _ _,?_⟩
  intro m hm n hn
  rw [mem_singleton.mp hn]
  exact hmark m hm

section Step
variable {cur : SplitCursor} {st : WriterState} {front : List Group} {g : Group} {b : Bytes}
  {len : ℕ}

theorem Split.mark_below (h : Split bound marks cur st front g b) (hpos : 0 < len) :
    ∀ m ∈ marks,m.stop < pendingBytes front+g.encodedBytes+len := by
  intro m hm
  have hle:=(h.within m hm).2
  omega

theorem Split.fits (h : Split bound marks cur st front g b) (encoded : Bytes) (seq : LogSeq)
    (op : U16) (hpos : 0 < len)
    (hfit : g.encodedBytes+len ≤ bound.bytes) :
    Split bound (marks++[⟨seq,pendingBytes front+g.encodedBytes+len⟩])
      ⟨cur.offset+len,cur.chunkStart⟩
      (placedState encoded seq op len cur.offset
        (front++[⟨g.chunks,g.encodedBytes+len,g.records+1,some seq⟩]) st.spareChunks st)
      front ⟨g.chunks,g.encodedBytes+len,g.records+1,some seq⟩ b := by
  have hstart:=h.start_le
  have hbytes:=h.bytes
  have hin : marksIn (marks++[⟨seq,pendingBytes front+g.encodedBytes+len⟩])
      (pendingBytes front) (pendingBytes front+(g.encodedBytes+len)) =
      marksIn marks (pendingBytes front) (pendingBytes front+g.encodedBytes)++
        [⟨seq,pendingBytes front+g.encodedBytes+len⟩] := by
    rw [marksIn_append,marksIn_inside (by dsimp only; omega) (by dsimp only; omega)]
    rw [marksIn_extend (by omega) fun m hm => (h.within m hm).2]
  refine ⟨rfl,h.spare,h.tallies.mark (by dsimp only; omega),h.full,h.content,?_,?_,hfit,
    ⟨?_,?_⟩,ascending_concat h.ascending (h.mark_below hpos),?_⟩
  · dsimp only
    omega
  · dsimp only
    omega
  · rw [hin,length_append,← h.counts.records]
    rfl
  · rw [hin,getLast?_concat]
    rfl
  · intro m hm
    rcases mem_append.mp hm with hm | hm
    · have hle:=h.within m hm
      dsimp only
      omega
    · rw [mem_singleton.mp hm]
      dsimp only
      omega

theorem Split.splits (h : Split bound marks cur st front g b) (encoded : Bytes) (seq : LogSeq)
    (op : U16) (hrecords : g.records ≠ 0) (hsplit : bound.bytes < g.encodedBytes+len) (hlen : len ≤ bound.bytes)
    (hencoded : cur.offset+len ≤ encoded.length) :
    Split bound (marks++[⟨seq,pendingBytes front+g.encodedBytes+len⟩])
      ⟨cur.offset+len,cur.offset+(bound.bytes-g.encodedBytes)⟩
      (placedState encoded seq op len cur.offset
        (front++[⟨g.chunks++openChunk encoded cur.chunkStart
          (cur.offset+(bound.bytes-g.encodedBytes)),bound.bytes,g.records,g.lastSeq⟩]++
          [⟨st.spareChunks,len-(bound.bytes-g.encodedBytes),1,some seq⟩]) [] st)
      (front++[⟨g.chunks++openChunk encoded cur.chunkStart
        (cur.offset+(bound.bytes-g.encodedBytes)),bound.bytes,g.records,g.lastSeq⟩])
      ⟨st.spareChunks,len-(bound.bytes-g.encodedBytes),1,some seq⟩ [] := by
  have hstart:=h.start_le
  have hbytes:=h.bytes
  have hroom:=h.le_bound
  have hcut : cur.offset+(bound.bytes-g.encodedBytes) ≤ encoded.length := by omega
  have hclosed:=content_openChunk (n := bound.bytes) (r := g.records) (l := g.lastSeq) h.content
    (show cur.chunkStart ≤ cur.offset+(bound.bytes-g.encodedBytes) by omega) hcut
  have hsame : marksIn (marks++[⟨seq,pendingBytes front+g.encodedBytes+len⟩])
      (pendingBytes front) (pendingBytes front+bound.bytes) =
      marksIn marks (pendingBytes front) (pendingBytes front+g.encodedBytes) := by
    rw [marksIn_append,marksIn_above (by dsimp only; omega),append_nil]
    exact marksIn_extend (by omega) fun m hm => (h.within m hm).2
  have hnew : marksIn (marks++[⟨seq,pendingBytes front+g.encodedBytes+len⟩])
      (pendingBytes front+bound.bytes)
      (pendingBytes front+bound.bytes+(len-(bound.bytes-g.encodedBytes))) =
      [⟨seq,pendingBytes front+g.encodedBytes+len⟩] := by
    rw [marksIn_append,marksIn_inside (by dsimp only; omega) (by dsimp only; omega)]
    rw [marksIn_below,nil_append]
    intro m hm
    have hle:=(h.within m hm).2
    omega
  refine ⟨rfl,rfl,tallies_append.mpr ⟨h.tallies.mark (by dsimp only; omega),?_,trivial⟩,?_,
    by rw [h.spare]; rfl,?_,?_,?_,⟨?_,?_⟩,
    ascending_concat h.ascending (h.mark_below (by omega)),?_⟩
  · rw [Nat.zero_add]
    refine ⟨⟨?_,?_⟩,⟨_,hclosed⟩,?_,le_rfl⟩
    · rw [hsame]
      exact h.counts.records
    · rw [hsame]
      exact h.counts.last
    · rw [← content_length hclosed,length_append,segment_length hcut]
      dsimp only
      omega
  · intro x hx
    rcases mem_append.mp hx with hx | hx
    · exact h.full x hx
    · rw [mem_singleton.mp hx]
      exact hrecords
  · dsimp only
    omega
  · rw [length_nil]
    dsimp only
    omega
  · dsimp only
    omega
  · rw [pendingBytes_concat,hnew]
    rfl
  · rw [pendingBytes_concat,hnew]
    rfl
  · intro m hm
    rw [pendingBytes_concat]
    rcases mem_append.mp hm with hm | hm
    · have hle:=h.within m hm
      dsimp only
      omega
    · rw [mem_singleton.mp hm]
      dsimp only
      omega

end Step

theorem splitBatch_tallies (encoded : Bytes) (seq : LogSeq) (ls : List (U16 × ℕ))
    {marks : List Mark} {cur : SplitCursor} {st : WriterState} {front : List Group} {g : Group}
    {b : Bytes} (h : Split bound marks cur st front g b)
    (hls : ∀ r ∈ ls,0 < r.2 ∧ r.2 ≤ bound.bytes)
    (hlen : cur.offset+totalLength ls ≤ encoded.length)
    (hnext : g.records ≠ 0 ∨ ∀ r,ls.head? = some r → g.encodedBytes+r.2 ≤ bound.bytes) :
    ∃ cur' st' front' g' b',splitBatch bound encoded seq ls cur st = (.ok cur',st') ∧
      Split bound (marks++batchMarks seq (pendingBytes front+g.encodedBytes) ls)
        cur' st' front' g' b' ∧
      cur'.offset = cur.offset+totalLength ls ∧ (g.records ≠ 0 ∨ ls ≠ [] → g'.records ≠ 0) ∧
      queueBytes front'++b'++segment encoded cur'.chunkStart cur'.offset =
        queueBytes front++b++segment encoded cur.chunkStart cur'.offset := by
  induction ls generalizing seq marks cur st front g b with
  | nil =>
    refine ⟨cur,st,front,g,b,rfl,?_,by simp [totalLength],by simp,rfl⟩
    rw [batchMarks,append_nil]
    exact h
  | cons r rs ih =>
    obtain ⟨op,len⟩ := r
    obtain ⟨hpos,hle⟩ := hls (op,len) (mem_cons_self ..)
    simp only at hpos hle
    have hrs : ∀ r ∈ rs,0 < r.2 ∧ r.2 ≤ bound.bytes :=
      fun r hr => hls r (mem_cons_of_mem _ hr)
    have htotal : totalLength ((op,len)::rs) = len+totalLength rs := by simp [totalLength]
    have hstart:=h.start_le
    rw [htotal] at hlen ⊢
    by_cases hfit : g.encodedBytes+len ≤ bound.bytes
    · obtain ⟨cur',st',front',g',b',hrun,hsplit,hoff,hfull,hbytes⟩ :=
        ih (saturatingAdd seq 1) (h.fits encoded seq op hpos hfit) hrs
          (by dsimp only; omega) (.inl (Nat.succ_ne_zero _))
      refine ⟨cur',st',front',g',b',?_,?_,by dsimp only at hoff; omega,
        fun _ => hfull (.inl (Nat.succ_ne_zero _)),hbytes⟩
      · rw [splitBatch_cons_fits bound encoded seq op len rs cur st front g h.queue hpos hfit]
        exact hrun
      · rw [append_assoc,singleton_append,← Nat.add_assoc] at hsplit
        exact hsplit
    · have hrecords : g.records ≠ 0 := by
        rcases hnext with hnext | hnext
        · exact hnext
        · exact absurd (hnext (op,len) rfl) hfit
      have hroom:=h.le_bound
      have hcut : cur.offset+(bound.bytes-g.encodedBytes) ≤ encoded.length := by omega
      have hclosed:=content_openChunk (n := bound.bytes) (r := g.records) (l := g.lastSeq)
        h.content (show cur.chunkStart ≤ cur.offset+(bound.bytes-g.encodedBytes) by omega) hcut
      obtain ⟨cur',st',front',g',b',hrun,hsplit,hoff,hfull,hbytes⟩ :=
        ih (saturatingAdd seq 1) (h.splits encoded seq op hrecords (by omega)
          hle (by omega)) hrs (by dsimp only; omega) (.inl Nat.one_ne_zero)
      refine ⟨cur',st',front',g',b',?_,?_,by dsimp only at hoff; omega,
        fun _ => hfull (.inl Nat.one_ne_zero),?_⟩
      · rw [splitBatch_cons_splits bound encoded seq op len rs cur st front g h.queue h.le_bound
          (by omega) hle]
        exact hrun
      · rw [append_assoc,singleton_append,pendingBytes_concat] at hsplit
        have hend : pendingBytes front+bound.bytes+(len-(bound.bytes-g.encodedBytes)) =
            pendingBytes front+g.encodedBytes+len := by omega
        dsimp only at hsplit
        rw [hend] at hsplit
        exact hsplit
      · rw [hbytes,queueBytes_append,queueBytes_singleton hclosed,append_nil]
        simp only [append_assoc]
        rw [segment_append encoded (by omega) (by dsimp only at hoff; omega)]

end Tallies

section Checksum
variable {xxh3 : Bytes → U64} {bound : GroupBound}

def marksFrom (xxh3 : Bytes → U64) : ℕ → List WalRecord → List Mark
  | _,[] => []
  | pos,r::rs =>
    ⟨r.seq,pos+(recordBytes xxh3 r).length⟩::
      marksFrom xxh3 (pos+(recordBytes xxh3 r).length) rs

theorem batchMarks_numbered (xxh3 : Bytes → U64) (seq : LogSeq) (pos : ℕ) (records : List (U16 × Bytes))
    (hroom : seq.toNat+records.length < 2^64) :
    batchMarks seq pos (batchLengths records) = marksFrom xxh3 pos (numbered seq records) := by
  induction records generalizing seq pos with
  | nil => rfl
  | cons r rs ih =>
    obtain ⟨op,payload⟩ := r
    rw [length_cons] at hroom
    have hone : seq.toNat+1 < 2^64 := by omega
    have hrest:=ih (seq+1) (pos+(minRecordLen+payload.length))
      (by rw [toNat_add_one hone]; omega)
    rw [batchLengths,map_cons,batchMarks,numbered,marksFrom,recordBytes_length,
      saturatingAdd_one hone]
    exact congrArg _ hrest

theorem PendingWf.ensure {marks : List Mark} {st : WriterState} (h : PendingWf bound marks st) :
    PendingWf bound marks (ensurePendingGroup st) ∧
      queueBytes (ensurePendingGroup st).pendingGroups = queueBytes st.pendingGroups ∧
      pendingBytes (ensurePendingGroup st).pendingGroups = pendingBytes st.pendingGroups := by
  by_cases hnil : st.pendingGroups = []
  · have hmarks : marks = [] := by
      rw [eq_nil_iff_forall_not_mem]
      intro m hm
      have hle:=h.within m hm
      rw [hnil] at hle
      exact absurd (hle.1.trans_le hle.2) (Nat.lt_irrefl 0)
    rw [ensurePendingGroup_of_nil hnil,hnil,hmarks,h.spare]
    refine ⟨⟨⟨⟨⟨rfl,rfl⟩,⟨[],rfl⟩,rfl,Nat.zero_le _⟩,trivial⟩,nofun,rfl,
      List.Pairwise.nil,nofun⟩,rfl,rfl⟩
  · rw [ensurePendingGroup_of_ne_nil hnil]
    exact ⟨h,rfl,rfl⟩

theorem PendingWf.split {marks : List Mark} {st : WriterState} (h : PendingWf bound marks st)
    {front : List Group} {g : Group} (hq : st.pendingGroups = front++[g]) :
    ∃ b,Split bound marks ⟨0,0⟩ st front g b := by
  have htallies:=h.tallies
  rw [hq,tallies_append,Nat.zero_add] at htallies
  obtain ⟨hfront,hback,-⟩ := htallies
  obtain ⟨b,hb⟩ := hback.content
  refine ⟨b,hq,h.spare,hfront,?_,hb,le_rfl,?_,hback.le_bound,hback.toCounts,
    h.ascending,?_⟩
  · intro x hx
    apply h.full
    rw [hq,dropLast_concat]
    exact hx
  · rw [content_length hb,← hback.bytes]
    rfl
  · rw [← pendingBytes_concat,← hq]
    exact h.within

theorem Split.close {marks : List Mark} {cur : SplitCursor} {st st' : WriterState}
    {front : List Group} {g : Group} {b : Bytes} (h : Split bound marks cur st front g b)
    (encoded : Bytes) (hlen : cur.offset ≤ encoded.length)
    (hqueue : st'.pendingGroups = front++
      [{ g with chunks := g.chunks++[⟨encoded,cur.chunkStart,cur.offset⟩] }])
    (hspare : st'.spareChunks = st.spareChunks) :
    PendingWf bound marks st' ∧ queueBytes st'.pendingGroups =
      queueBytes front++b++segment encoded cur.chunkStart cur.offset := by
  have hcontent:=content_append_chunk (n := g.encodedBytes) (r := g.records) (l := g.lastSeq)
    h.content (chunk_bytes h.start_le hlen)
  refine ⟨⟨?_,?_,hspare.trans h.spare,h.ascending,?_⟩,?_⟩
  · rw [hqueue]
    refine tallies_append.mpr ⟨h.tallies,?_,trivial⟩
    rw [Nat.zero_add]
    refine ⟨⟨h.counts.records,h.counts.last⟩,⟨_,hcontent⟩,?_,h.le_bound⟩
    rw [← content_length hcontent,length_append,segment_length hlen]
    exact h.bytes
  · rw [hqueue,dropLast_concat]
    exact h.full
  · rw [hqueue,pendingBytes_concat]
    exact h.within
  · rw [hqueue,queueBytes_append,queueBytes_singleton hcontent,append_assoc]

/-- An accepted batch keeps the books of the pending groups and puts its frames behind their
bytes; behind one that is not empty every group has a record. -/
theorem stageMany_tallies {marks : List Mark} {st st' : WriterState}
    {records : List (U16 × Bytes)} {first last : LogSeq} {leader : Bool}
    (h : PendingWf bound marks st)
    (hstage : stageMany xxh3 bound records st = (.staged first last leader,st')) :
    PendingWf bound
      (marks++marksFrom xxh3 (pendingBytes st.pendingGroups) (numbered st.nextSeq records)) st' ∧
    queueBytes st'.pendingGroups =
      queueBytes st.pendingGroups++framesBytes xxh3 (numbered st.nextSeq records) ∧
    (records ≠ [] → ∀ g ∈ st'.pendingGroups,g.records ≠ 0) := by
  rcases stageMany_cases bound hstage with ⟨e,hout,-⟩ | ⟨e,hout,-⟩ | ⟨rfl,-,rfl,-⟩ |
    ⟨e,encoded,hout,-⟩ | ⟨encoded,cur,mid,-,-,-,hsucc⟩
  · cases hout
  · cases hout
  · refine ⟨?_,?_,fun hne => absurd rfl hne⟩
    · rw [numbered,marksFrom,append_nil]
      exact h
    · rw [numbered,framesBytes_nil,append_nil]
  · cases hout
  · have hchk:=hsucc.toStageManyChecked
    obtain ⟨hwf,hbytes,hpending⟩ := h.ensure
    obtain ⟨front,g,hq⟩ := exists_concat_of_ne_nil (ensurePendingGroup_ne_nil st)
    obtain ⟨b,hsplit⟩ := hwf.split hq
    have hencoded : framesBytes xxh3 (numbered st.nextSeq records) = encoded := by
      have hrun:=hchk.encoded_eq
      rw [encodeBatch_appendEncoder xxh3 records 0 _ [] hchk.framable hchk.room] at hrun
      simpa using hrun
    have htotal : totalLength (batchLengths records) = encoded.length := by
      rw [← hencoded,framesBytes_numbered_length]
    have hnext : g.records ≠ 0 ∨ ∀ r,(batchLengths records).head? = some r →
        g.encodedBytes+r.2 ≤ bound.bytes := by
      by_cases hzero : g.records = 0
      · refine .inr fun r hr => ?_
        rw [batchLengths,head?_map,Option.map_eq_some_iff] at hr
        obtain ⟨q,hhead,rfl⟩ := hr
        exact hchk.first_fits g (getLast?_of_concat hq) hzero q hhead
      · exact .inl hzero
    obtain ⟨cur',mid',front',g',b',hrun,hdone,hoff,hfull,hplaced⟩ :=
      splitBatch_tallies encoded st.nextSeq (batchLengths records) hsplit hchk.lengths
        (by dsimp only; omega) hnext
    rw [hsucc.split] at hrun
    obtain ⟨rfl,rfl⟩ : cur = cur' ∧ mid = mid' := by simpa using hrun
    dsimp only at hoff hplaced
    rw [Nat.zero_add,htotal] at hoff
    have hqueue : st'.pendingGroups = front'++
        [{ g' with chunks := g'.chunks++[⟨encoded,cur.chunkStart,cur.offset⟩] }] := by
      rw [hsucc.result,modifyBack_concat _ hdone.queue]
    have hspare : st'.spareChunks = mid.spareChunks := by
      rw [hsucc.result,modifyBack_concat _ hdone.queue]
    obtain ⟨hresult,hresultBytes⟩ := hdone.close encoded hoff.le hqueue hspare
    rw [← pendingBytes_concat,← hq,hpending,batchMarks_numbered xxh3 _ _ _ hchk.room]
      at hresult
    refine ⟨hresult,?_,fun _ x hx => ?_⟩
    · rw [hresultBytes,hplaced,hoff,segment_all,hencoded,← hbytes,hq,queueBytes_append,
        queueBytes_singleton hsplit.content]
    · rw [hqueue] at hx
      rcases mem_append.mp hx with hx | hx
      · exact hdone.full x hx
      · rw [mem_singleton.mp hx]
        exact hfull (.inr hchk.lengths_ne_nil)

end Checksum

theorem created_pendingWf (bound : GroupBound) (first : LogSeq) :
    PendingWf bound [] (createState first) := by
  have hcontent : Group.content ⟨[⟨headerBytes first,0,walHeaderLen⟩],walHeaderLen,0,none⟩ =
      some (segment (headerBytes first) 0 walHeaderLen) :=
    content_append_chunk (g := ⟨[],0,0,none⟩) (b := []) rfl
      (chunk_bytes (Nat.zero_le _) (headerBytes_length first).ge)
  refine ⟨⟨⟨⟨rfl,rfl⟩,⟨_,hcontent⟩,rfl,bound.header_le⟩,trivial⟩,nofun,rfl,
    List.Pairwise.nil,nofun⟩

/-- An empty batch is accepted and leaves the group of the header without a record. -/
theorem empty_batch_keeps_header : ¬ ∀ (bound : GroupBound) (marks : List Mark)
    (st st' : WriterState) (records : List (U16 × Bytes)) (first last : LogSeq) (leader : Bool),
    PendingWf bound marks st →
    stageMany (fun _ => 0) bound records st = (.staged first last leader,st') →
    ∀ g ∈ st'.pendingGroups,g.records ≠ 0 := by
  intro hall
  exact hall ⟨walHeaderLen,le_rfl⟩ [] (createState 1) (createState 1) [] 1 1 false
    (created_pendingWf _ 1) rfl _ mem_cons_self rfl

/-- What `stageMany` does behind the split. -/
def afterSplit (encoded : Bytes) (start stop : LogSeq) :
    Except WalWriteError SplitCursor × WriterState → StageManyOutcome × WriterState
  | (.error e,st) => (.refused e,st)
  | (.ok cur,st) =>
    let st:=modifyBack (fun g => { g with
      chunks := g.chunks++[⟨encoded,cur.chunkStart,cur.offset⟩] }) st
    let (leader,st) := claimBarrier { st with
      nextSeq := stop
      encodedBufferAllocations := st.encodedBufferAllocations+1 }
    (.staged start stop leader,st)

theorem stageMany_tallies_straddling : ∃ st',stageMany (fun _ => 0) ⟨64,by decide⟩
      [(1,[7]),(2,[8,9])] (createState 1) = (.staged 1 3 true,st') ∧
    st'.pendingGroups.map (fun g => (g.encodedBytes,g.records,g.lastSeq)) =
      [(64,1,some 1),(23,1,some 2)] ∧
    PendingWf ⟨64,by decide⟩ (marksFrom (fun _ => 0) walHeaderLen
      (numbered 1 [(1,[7]),(2,[8,9])])) st' := by
  have hsplit : ∀ encoded,splitBatch ⟨64,by decide⟩ encoded 1 [(1,23),(2,24)] ⟨0,0⟩
      (createState 1) = _ := fun encoded =>
    (splitBatch_cons_fits _ encoded 1 1 23 [(2,24)] ⟨0,0⟩ (createState 1) [] _ rfl (by decide)
      (by decide)).trans
    (splitBatch_cons_splits _ encoded (saturatingAdd 1 1) 2 24 [] _ _ [] _ rfl (by decide)
      (by decide) (by decide))
  have hstage : stageMany (fun _ => 0) ⟨64,by decide⟩ [(1,[7]),(2,[8,9])] (createState 1) =
      afterSplit (framesBytes (fun _ => 0) (numbered 1 [(1,[7]),(2,[8,9])])) 1 3
        (splitBatch ⟨64,by decide⟩ (framesBytes (fun _ => 0)
          (numbered 1 [(1,[7]),(2,[8,9])])) 1 [(1,23),(2,24)] ⟨0,0⟩ (createState 1)) := rfl
  rw [hsplit] at hstage
  exact ⟨_,hstage,by decide +kernel,(stageMany_tallies (created_pendingWf _ 1) hstage).1⟩

end Zeppelin.Wal
