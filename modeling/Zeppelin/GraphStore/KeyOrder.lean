import Zeppelin.GraphStore.KeyReads

namespace Zeppelin.GraphStore.Keys
open Collections List
open GraphWal (BlockKind PhysicalRef StoreInstanceId maxGraphInputBytes)
open PropertyGraph (EntityKind GraphGeneration)

def keyOrder (a b : Bytes) : Ordering := (prefixOrder (prefixOf a) (prefixOf b)).then (compare a b)

theorem prefixOrder_eq_iff {p q : U8 × U64} : prefixOrder p q = .eq ↔ p = q := by
  rw [prefixOrder,Ordering.then_eq_eq,Std.LawfulEqOrd.compare_eq_iff_eq,
    Std.LawfulEqOrd.compare_eq_iff_eq,Prod.ext_iff]

theorem keyOrder_of_ne {a b : Bytes} (h : prefixOrder (prefixOf a) (prefixOf b) ≠ .eq) :
    keyOrder a b = prefixOrder (prefixOf a) (prefixOf b) := by
  rw [keyOrder]
  cases hcase : prefixOrder (prefixOf a) (prefixOf b) with
  | eq => exact absurd hcase h
  | lt | gt => rfl

theorem keyOrder_of_eq {a b : Bytes} (ha : 9 ≤ a.length) (hb : 9 ≤ b.length)
    (h : prefixOf a = prefixOf b) : keyOrder a b = compare (a.drop 9) (b.drop 9) := by
  have hfront : compare (a.take 9) (b.take 9) = .eq := by
    rw [(prefixOf_eq_iff ha hb).mp h]
    exact Std.ReflCmp.compare_self
  rw [keyOrder,prefixOrder_eq_iff.mpr h,compare_take_drop ha hb,hfront]
  rfl

theorem take_piece {bytes : Bytes} {reach count : ℕ} (h : count ≤ (bytes.take reach).length) :
    (bytes.take reach).take count = bytes.take count := by
  rw [length_take] at h
  rw [take_take,Nat.min_eq_left (h.trans (Nat.min_le_left ..))]

theorem common_piece {a b : Bytes} {p reachA reachB maximum : ℕ} (ha : p < a.length)
    (hb : p < b.length) (hreachA : 0 < reachA) (hreachB : 0 < reachB) (hmaximum : 0 < maximum)
    {count : ℕ} (hcount : count = min (min ((a.drop p).take reachA).length
      ((b.drop p).take reachB).length) maximum) :
    0 < count ∧ count ≤ maximum ∧ ((a.drop p).take reachA).take count = (a.drop p).take count ∧
      ((b.drop p).take reachB).take count = (b.drop p).take count := by
  have hlengthA : 0 < ((a.drop p).take reachA).length := by
    rw [length_take,length_drop]
    exact Nat.lt_min.mpr ⟨hreachA,Nat.sub_pos_of_lt ha⟩
  have hlengthB : 0 < ((b.drop p).take reachB).length := by
    rw [length_take,length_drop]
    exact Nat.lt_min.mpr ⟨hreachB,Nat.sub_pos_of_lt hb⟩
  have hboth:=hcount.le.trans (Nat.min_le_left _ _)
  refine ⟨?_,hcount ▸ Nat.min_le_right ..,take_piece ?_,take_piece ?_⟩
  · rw [hcount]
    exact Nat.lt_min.mpr ⟨Nat.lt_min.mpr ⟨hlengthA,hlengthB⟩,hmaximum⟩
  · exact hboth.trans (Nat.min_le_left ..)
  · exact hboth.trans (Nat.min_le_right ..)

theorem compareFenceKey_pieces {a b : Bytes} {compareSpan : ℕ → ℕ → Read (ℕ × Ordering)}
    {position : ℕ} (hposition : position ≤ min a.length b.length)
    (hspan : ∀ p,position ≤ p → p < min a.length b.length → ∃ count,
      compareSpan p (min a.length b.length-p) =
        .ok (count,compare ((a.drop p).take count) ((b.drop p).take count)) ∧
      0 < count ∧ count ≤ min a.length b.length-p) :
    compareFenceKey a.length b.length compareSpan position =
      .ok (compare (a.drop position) (b.drop position)) := by
  induction hleft : min a.length b.length-position using Nat.strong_induction_on
    generalizing position with
  | _ left ih =>
    rw [compareFenceKey]
    by_cases hend : position < min a.length b.length
    · obtain ⟨count,hcount,hpositive,hle⟩ := hspan position le_rfl hend
      have hsplit:=@compare_take_drop _ _ count (a.drop position) (b.drop position)
        (by rw [length_drop]; omega) (by rw [length_drop]; omega)
      rw [if_pos hend,hcount,ok_bind]
      dsimp only
      rw [dif_neg (by omega),hsplit]
      by_cases horder : compare ((a.drop position).take count) ((b.drop position).take count) = .eq
      · rw [if_neg (not_not.mpr horder),horder,Ordering.eq_then,drop_drop,drop_drop]
        refine ih _ (by omega) (by omega) (fun p hp => hspan p (by omega)) rfl
      · rw [if_pos horder]
        cases hcase : compare ((a.drop position).take count) ((b.drop position).take count) with
        | eq => exact absurd hcase horder
        | lt | gt => rfl
    · have hsame : position = min a.length b.length := by omega
      rw [if_neg hend,hsame,compare_drop_min]
      rfl

section Compare
variable {source : BlockSource} {root : DirectoryRoot} {left right : Key} {a b : Bytes}
  (ha : Stored source root left a) (hb : Stored source root right b)
include ha hb

theorem borrowedSpans_piece {p : ℕ} (hp : p < min a.length b.length) : ∃ count,
    borrowedSpans source root left right p (min a.length b.length-p) =
      .ok (count,compare ((a.drop p).take count) ((b.drop p).take count)) ∧
    0 < count ∧ count ≤ min a.length b.length-p := by
  obtain ⟨hpA,hpB⟩ := Nat.lt_min.mp hp
  obtain ⟨hpositive,hle,htakeA,htakeB⟩ := common_piece hpA hpB (reach_pos left p)
    (reach_pos right p) (Nat.sub_pos_of_lt hp) rfl
  refine ⟨_,?_,hpositive,hle⟩
  rw [borrowedSpans,span_stored ha hpA,ok_bind,span_stored hb hpB,ok_bind]
  dsimp only
  rw [htakeA,htakeB]
  rfl

theorem scopedSpans_piece {p : ℕ} (hp : p < min a.length b.length)
    (hroom : min a.length b.length-p ≤ chunkBytes) : ∃ count,
    scopedSpans source root left right p (min a.length b.length-p) =
      .ok (count,compare ((a.drop p).take count) ((b.drop p).take count)) ∧
    0 < count ∧ count ≤ min a.length b.length-p := by
  obtain ⟨hpA,hpB⟩ := Nat.lt_min.mp hp
  have hmaximum:=Nat.sub_pos_of_lt hp
  obtain ⟨hpositive,hle,htakeA,htakeB⟩ := common_piece hpA hpB
    (Nat.lt_min.mpr ⟨reach_pos left p,hmaximum⟩) (Nat.lt_min.mpr ⟨reach_pos right p,hmaximum⟩)
    hmaximum rfl
  refine ⟨_,?_,hpositive,hle⟩
  rw [scopedSpans,failIf_neg _ (Nat.not_lt.mpr hroom),ok_bind,copyScopedSpan_stored ha hpA,
    ok_bind,copyScopedSpan_stored hb hpB,ok_bind]
  dsimp only
  rw [htakeA,htakeB]
  rfl

variable (hadmittedA : Admitted a) (hadmittedB : Admitted b)
include hadmittedA hadmittedB

theorem compareKeys_borrowed (hscoped : source.scopedBlocks = false) :
    compareKeys source root left right = .ok (keyOrder a b) := by
  rw [compareKeys,keyPrefix_eq ha hadmittedA.short,kindAndSpace_admitted hadmittedA,ok_bind,
    keyPrefix_eq hb hadmittedB.short,kindAndSpace_admitted hadmittedB,ok_bind]
  by_cases hprefix : prefixOrder (prefixOf a) (prefixOf b) = .eq
  · rw [if_neg (not_not.mpr hprefix),hscoped,if_neg Bool.false_ne_true,ha.length_eq,
      hb.length_eq,keyOrder_of_eq hadmittedA.short hadmittedB.short (prefixOrder_eq_iff.mp hprefix)]
    exact compareFenceKey_pieces (Nat.le_min.mpr ⟨hadmittedA.short,hadmittedB.short⟩)
      fun p _ hp => borrowedSpans_piece ha hb hp
  · rw [if_pos hprefix,keyOrder_of_ne hprefix]
    rfl

theorem compareKeys_scoped (hscoped : source.scopedBlocks = true)
    (h : a.take 9 ≠ b.take 9 ∨ min a.length b.length ≤ chunkBytes+9) :
    compareKeys source root left right = .ok (keyOrder a b) := by
  rw [compareKeys,keyPrefix_eq ha hadmittedA.short,kindAndSpace_admitted hadmittedA,ok_bind,
    keyPrefix_eq hb hadmittedB.short,kindAndSpace_admitted hadmittedB,ok_bind]
  by_cases hprefix : prefixOrder (prefixOf a) (prefixOf b) = .eq
  · have hsame:=(prefixOf_eq_iff hadmittedA.short hadmittedB.short).mp
      (prefixOrder_eq_iff.mp hprefix)
    have hroom:=h.resolve_left (not_not.mpr hsame)
    rw [if_neg (not_not.mpr hprefix),hscoped,if_pos rfl,ha.length_eq,hb.length_eq,
      keyOrder_of_eq hadmittedA.short hadmittedB.short (prefixOrder_eq_iff.mp hprefix)]
    exact compareFenceKey_pieces (Nat.le_min.mpr ⟨hadmittedA.short,hadmittedB.short⟩)
      fun p hle hp => scopedSpans_piece ha hb hp (by omega)
  · rw [if_pos hprefix,keyOrder_of_ne hprefix]
    rfl

theorem compareKeys_overrun (hscoped : source.scopedBlocks = true) (hsame : a.take 9 = b.take 9)
    (hlong : chunkBytes+9 < min a.length b.length) :
    compareKeys source root left right = .error .memory := by
  have hprefix:=prefixOrder_eq_iff.mpr
    ((prefixOf_eq_iff hadmittedA.short hadmittedB.short).mpr hsame)
  have hfull : chunkBytes < min a.length b.length-9 := by omega
  rw [compareKeys,keyPrefix_eq ha hadmittedA.short,kindAndSpace_admitted hadmittedA,ok_bind,
    keyPrefix_eq hb hadmittedB.short,kindAndSpace_admitted hadmittedB,ok_bind,
    if_neg (not_not.mpr hprefix),hscoped,if_pos rfl,ha.length_eq,hb.length_eq,
    compareFenceKey,if_pos (by omega),scopedSpans,failIf,if_pos hfull]
  rfl

end Compare

theorem prefixOf_bytes (probe : FenceKey) :
    prefixOf probe.bytes = (probe.kindTag,probe.keySpace) := by
  have hfield : ((probe.bytes.drop 1).take 8) = toLe 8 probe.keySpace :=
    take_left' (toLe_length 8 _)
  rw [prefixOf,hfield,ofLe_toLe_64]
  rfl

theorem drop_bytes (probe : FenceKey) : probe.bytes.drop 9 = probe.text :=
  drop_left' (toLe_length 8 _)

theorem bytes_length (probe : FenceKey) : probe.bytes.length = probe.text.length+9 := by
  rw [FenceKey.bytes,length_cons,length_append,toLe_length]
  omega

section Probe
variable {source : BlockSource} {root : DirectoryRoot} {stored : Key} {b : Bytes}
  (hb : Stored source root stored b)
include hb

theorem compareText_pieces {text : Bytes} {position : ℕ}
    (hposition : position ≤ min (b.length-9) text.length) :
    compareText source root stored text (b.length-9) position =
      .ok (compare (text.drop position) ((b.drop 9).drop position)) := by
  induction hleft : min (b.length-9) text.length-position using Nat.strong_induction_on
    generalizing position with
  | _ left ih =>
    have hlength : (b.drop 9).length = b.length-9 := length_drop ..
    rw [compareText]
    by_cases hend : position < min (b.length-9) text.length
    · have hreach:=reach_pos stored (position+9)
      have hpiece:=@length_take _ (reach stored (position+9)) (b.drop (position+9))
      rw [length_drop] at hpiece
      rw [if_pos hend,span_stored hb (by omega),ok_bind]
      dsimp only
      generalize hwidth : min ((b.drop (position+9)).take (reach stored (position+9))).length
        (min (b.length-9) text.length-position) = width
      have hrest : b.drop (position+9) = (b.drop 9).drop position := by
        rw [drop_drop,Nat.add_comm]
      have hsplit:=@compare_take_drop _ _ width (text.drop position) ((b.drop 9).drop position)
        (by rw [length_drop]; omega) (by rw [length_drop]; omega)
      rw [dif_neg (by omega),take_piece (by omega),hrest,hsplit]
      by_cases horder : compare ((text.drop position).take width)
          (((b.drop 9).drop position).take width) = .eq
      · rw [if_neg (not_not.mpr horder),horder,Ordering.eq_then,drop_drop,drop_drop]
        exact ih _ (by omega) (by omega) rfl
      · rw [if_pos horder]
        cases hcase : compare ((text.drop position).take width)
            (((b.drop 9).drop position).take width) with
        | eq => exact absurd hcase horder
        | lt | gt => rfl
    · have hsame : position = min text.length (b.drop 9).length := by omega
      rw [if_neg hend,hsame,compare_drop_min,hlength]
      rfl

theorem compareStored_eq (hadmitted : Admitted b) (probe : FenceKey) :
    probe.compareStored source root stored = .ok (keyOrder probe.bytes b) := by
  rw [FenceKey.compareStored,spanPrefix_eq hb hadmitted.short,kindAndSpace_admitted hadmitted,
    ok_bind,← prefixOf_bytes]
  dsimp only
  by_cases hprefix : prefixOrder (prefixOf probe.bytes) (prefixOf b) = .eq
  · have hshort : 9 ≤ probe.bytes.length := by
      rw [bytes_length]
      omega
    rw [if_neg (not_not.mpr hprefix),failIf_neg _ (by rw [hb.length_eq]; exact hadmitted.short.not_gt),
      ok_bind,hb.length_eq,keyOrder_of_eq hshort hadmitted.short (prefixOrder_eq_iff.mp hprefix),
      drop_bytes]
    exact compareText_pieces hb (Nat.zero_le _)
  · rw [if_pos hprefix,keyOrder_of_ne hprefix]
    rfl

end Probe

/-- Both kinds of source and every probe of the left key give the order of the bytes. -/
def SingleOrder (source : BlockSource) (root : DirectoryRoot) (left right : Key)
    (a b : Bytes) : Prop :=
  (∀ copying,compareKeys ⟨source.block,copying⟩ root left right = .ok (keyOrder a b)) ∧
    ∀ probe : FenceKey,probe.bytes = a →
      probe.compareStored ⟨source.block,false⟩ root right = .ok (keyOrder a b)

/-- The comparisons of two valid keys agree exactly where equal prefixes are followed by at most
a chunk in the shorter key. -/
theorem stored_keys_compare {source : BlockSource} {root : DirectoryRoot} {left right : Key}
    (hleft : Valid source root left) (hright : Valid source root right) :
    ∃ a b,Stored source root left a ∧ Stored source root right b ∧
      (SingleOrder source root left right a b ↔
        a.take 9 ≠ b.take 9 ∨ min a.length b.length ≤ chunkBytes+9) := by
  obtain ⟨a,ha,hadmittedA⟩ := hleft.stored
  obtain ⟨b,hb,hadmittedB⟩ := hright.stored
  have hboth : ∀ copying,Stored ⟨source.block,copying⟩ root left a ∧
      Stored ⟨source.block,copying⟩ root right b := fun _ => ⟨ha,hb⟩
  refine ⟨a,b,ha,hb,?_,?_⟩
  · intro hsingle
    by_contra hnot
    rw [not_or,not_not,Nat.not_le] at hnot
    have hcopied:=hsingle.1 true
    rw [compareKeys_overrun (hboth true).1 (hboth true).2 hadmittedA hadmittedB rfl hnot.1
      hnot.2] at hcopied
    cases hcopied
  · intro hfits
    refine ⟨fun copying => ?_,fun probe hprobe => ?_⟩
    · cases copying with
      | false => exact compareKeys_borrowed (hboth _).1 (hboth _).2 hadmittedA hadmittedB rfl
      | true => exact compareKeys_scoped (hboth _).1 (hboth _).2 hadmittedA hadmittedB rfl hfits
    · rw [← hprobe]
      exact compareStored_eq (hboth false).2 hadmittedB probe

def emptySource : BlockSource := ⟨fun _ => .error (.invalid "absent block"),false⟩

def fenceRoot : DirectoryRoot := ⟨.keyFences,⟨7,GraphWal.seven_nonzero⟩,5⟩

def shortKey (last : U8) : Key := .inline [1,1,0,0,0,0,0,0,0,last]

theorem stored_keys_compare_short :
    SingleOrder emptySource fenceRoot (shortKey 97) (shortKey 98)
      [1,1,0,0,0,0,0,0,0,97] [1,1,0,0,0,0,0,0,0,98] := by
  obtain ⟨a,b,ha,hb,hsingle⟩ := @stored_keys_compare emptySource fenceRoot (shortKey 97)
    (shortKey 98) ⟨false,by decide +kernel⟩ ⟨false,by decide +kernel⟩
  obtain rfl : a = [1,1,0,0,0,0,0,0,0,97] := ha
  obtain rfl : b = [1,1,0,0,0,0,0,0,0,98] := hb
  exact hsingle.mpr (.inr (by decide))

theorem feed_ascii {bytes : Bytes} (hlength : bytes.length ≤ chunkBytes)
    (hascii : ∀ byte ∈ bytes,byte ≤ 0x7F) : Utf8State.start.feed bytes = .ok .start := by
  rw [Utf8State.feed,failIf_neg _ (Nat.not_lt.mpr hlength),ok_bind]
  clear hlength
  induction bytes with
  | nil => rfl
  | cons byte bytes ih =>
    have hbyte : Utf8State.start.byte byte = .ok .start := by
      rw [Utf8State.byte,if_neg (by decide),if_pos (hascii byte (mem_cons_self ..))]
    rw [foldlM_cons,hbyte,ok_bind]
    exact ih fun b hb => hascii b (mem_cons_of_mem _ hb)

theorem valid_of_ascii {source : BlockSource} {root : DirectoryRoot} {key : Key} {bytes : Bytes}
    (hstored : Stored source root key bytes) (hadmitted : Admitted bytes)
    (hascii : ∀ byte ∈ bytes.drop 9,byte ≤ 0x7F) : Valid source root key := by
  have hsource : Stored ⟨source.block,false⟩ root key bytes := hstored
  have hloop : ∀ position,9 ≤ position → position ≤ bytes.length →
      validateFenceKey bytes.length (span ⟨source.block,false⟩ root key) position .start =
        .ok () := by
    intro position
    induction hleft : bytes.length-position using Nat.strong_induction_on
      generalizing position with
    | _ left ih =>
      intro hnine hposition
      rw [validateFenceKey]
      by_cases hend : position < bytes.length
      · have hreach:=reach_pos key position
        have hreachLe:=reach_le key position
        have hpiece:=@length_take _ (reach key position) (bytes.drop position)
        rw [length_drop] at hpiece
        have hmem : ∀ byte ∈ (bytes.drop position).take (reach key position),byte ≤ 0x7F := by
          intro byte hbyte
          apply hascii
          rw [show position = 9+(position-9) by omega,← drop_drop] at hbyte
          exact mem_of_mem_drop (mem_of_mem_take hbyte)
        rw [if_pos hend,span_stored hsource hend,ok_bind,feed_ascii (by omega) hmem,ok_bind,
          dif_neg (by omega)]
        exact ih _ (by omega) _ rfl (by omega) (by omega)
      · rw [if_neg hend,failIf_neg _ (by omega)]
        rfl
  refine ⟨false,?_⟩
  have hlength:=hstored.length_eq
  have hshort:=hadmitted.short
  have hlong:=hadmitted.long
  rw [validateKey,failIf_neg _ (by omega),ok_bind,keyPrefix_eq hsource hshort,
    kindAndSpace_admitted hadmitted,ok_bind,if_neg Bool.false_ne_true,hlength]
  exact hloop 9 le_rfl hshort

@[irreducible] def longBytes (last : U8) : Bytes :=
  [1,1,0,0,0,0,0,0,0]++(List.replicate chunkBytes 97++[last])

def sampleRef (artifact : U128) (hne : artifact ≠ 0) (length : U32) (kind : BlockKind) :
    PhysicalRef := ⟨⟨artifact,hne⟩,96,length,kind,1⟩

def commonChunk : PhysicalRef := sampleRef 2 GraphWal.two_nonzero 65560 .payloadChunk
def firstEnd : PhysicalRef := sampleRef 3 (by decide) 34 .payloadChunk
def secondEnd : PhysicalRef := sampleRef 4 (by decide) 34 .payloadChunk
def firstExtents : PhysicalRef := sampleRef 5 (by decide) 120 .overflowKey
def secondExtents : PhysicalRef := sampleRef 6 (by decide) 120 .overflowKey

def sampleBlock (reference : PhysicalRef) (payload : Bytes) : FramedBlock :=
  ⟨⟨⟨7,GraphWal.seven_nonzero⟩,reference.artifact,5,1⟩,reference,payload⟩

def extents (last : PhysicalRef) : Bytes :=
  utf8Bytes "ZGEX"++toLe 2 (1 : U16)++toLe 2 (7 : U16)++toLe 8 (65546 : U64)++
    toLe 4 (2 : U32)++toLe 4 (65536 : U32)++toLe 8 (0 : U64)++
      referenceBytes commonChunk++referenceBytes last

def longSource : BlockSource where
  block := fun reference =>
    if reference = firstExtents then .ok (sampleBlock firstExtents (extents firstEnd))
    else if reference = secondExtents then .ok (sampleBlock secondExtents (extents secondEnd))
    else if reference = commonChunk then
      .ok (sampleBlock commonChunk ((longBytes 97).take chunkBytes))
    else if reference = firstEnd then
      .ok (sampleBlock firstEnd ((longBytes 97).drop chunkBytes))
    else if reference = secondEnd then
      .ok (sampleBlock secondEnd ((longBytes 98).drop chunkBytes))
    else .error (.invalid "absent block")
  scopedBlocks := false

def firstLong : Key := .overflow 65546 firstExtents
def secondLong : Key := .overflow 65546 secondExtents

theorem longBytes_length (last : U8) : (longBytes last).length = 65546 := by
  simp only [longBytes,length_append,length_replicate,length_cons,
    length_nil,chunkBytes]

theorem longBytes_front (last : U8) :
    (longBytes last).take 9 = [1,1,0,0,0,0,0,0,0] := by
  rw [longBytes]
  exact take_left' rfl

theorem longBytes_take (last : U8) :
    (longBytes last).take chunkBytes = (longBytes 97).take chunkBytes := by
  have hle : chunkBytes ≤
      ([1,1,0,0,0,0,0,0,0]++List.replicate chunkBytes (97 : U8)).length := by
    rw [length_append,length_replicate]
    exact Nat.le_add_left ..
  rw [longBytes,longBytes,← append_assoc,← append_assoc,
    take_append_of_le_length hle,take_append_of_le_length hle]

theorem longBytes_admitted (last : U8) : Admitted (longBytes last) := by
  refine ⟨?_,?_,?_,?_⟩
  · rw [longBytes_length]
    decide
  · rw [longBytes_length]
    decide
  · rw [← prefixOf_take le_rfl,longBytes_front]
    decide
  · rw [← prefixOf_take le_rfl,longBytes_front]
    decide

theorem longBytes_ascii {last : U8} (hlast : last ≤ 0x7F) :
    ∀ byte ∈ (longBytes last).drop 9,byte ≤ 0x7F := by
  intro byte hbyte
  have hdrop : (longBytes last).drop 9 = List.replicate chunkBytes 97++[last] := by
    rw [longBytes]
    exact drop_left' rfl
  have hmem:=hdrop ▸ hbyte
  rcases mem_append.mp hmem with hmem | hmem
  · rw [eq_of_mem_replicate hmem]
    decide
  · rwa [mem_singleton.mp hmem]

theorem long_stored {list last : PhysicalRef} {final : U8}
    (hlist : payloadRef .overflowKey 65546 list = .ok ⟨.overflowKey,65546,list⟩)
    (hroot : PayloadRef.root ⟨.overflowKey,65546,list⟩ longSource fenceRoot.store
      fenceRoot.generation = .ok (sampleBlock list (extents last)))
    (hfirst : chunkReference (extents last) 0 = .ok commonChunk)
    (hsecond : chunkReference (extents last) 1 = .ok last)
    (hlast : resolve longSource last fenceRoot.store 5 =
      .ok (sampleBlock last ((longBytes final).drop chunkBytes))) :
    Stored longSource fenceRoot (.overflow 65546 list) (longBytes final) := by
  have hcommon : resolve longSource commonChunk fenceRoot.store 5 =
      .ok (sampleBlock commonChunk ((longBytes 97).take chunkBytes)) := rfl
  have hlength : (longBytes final).length = (65546 : U64).toNat := by
    rw [longBytes_length]
    decide
  refine ⟨hlength,_,_,hlist,hroot,fun index hindex => ?_⟩
  rw [longBytes_length] at hindex
  have hsmall : index < 2 := by
    by_contra hnot
    have hle:=Nat.mul_le_mul_right chunkBytes (Nat.le_of_not_lt hnot)
    have hbig : 65546 ≤ 2*chunkBytes := by decide
    omega
  have hcases : index = 0 ∨ index = 1 := by omega
  rcases hcases with rfl | rfl
  · have hcheck : PayloadRef.checkChunk ⟨.overflowKey,65546,list⟩ 0
        ((longBytes 97).take chunkBytes) = .ok () := by
      have hstart : ¬ (65546 : U64).toNat < 0*chunkBytes := by decide
      have hsize : ¬ ((65546 : U64).toNat-0*chunkBytes = 0 ∨
          min chunkBytes 65546 ≠ min ((65546 : U64).toNat-0*chunkBytes) chunkBytes) := by
        decide
      rw [PayloadRef.checkChunk,if_neg hstart,length_take,longBytes_length]
      exact failIf_neg _ hsize
    rw [PayloadRef.chunkAt,sampleBlock,hfirst,ok_bind,hcommon,ok_bind,sampleBlock,hcheck,
      ok_bind,Nat.zero_mul,drop_zero,longBytes_take final]
    rfl
  · have hcheck : PayloadRef.checkChunk ⟨.overflowKey,65546,list⟩ 1
        ((longBytes final).drop chunkBytes) = .ok () := by
      have hstart : ¬ (65546 : U64).toNat < 1*chunkBytes := by decide
      have hsize : ¬ ((65546 : U64).toNat-1*chunkBytes = 0 ∨
          65546-chunkBytes ≠ min ((65546 : U64).toNat-1*chunkBytes) chunkBytes) := by
        decide
      rw [PayloadRef.checkChunk,if_neg hstart,length_drop,longBytes_length]
      exact failIf_neg _ hsize
    have hall : ((longBytes final).drop chunkBytes).length ≤ chunkBytes := by
      rw [length_drop,longBytes_length]
      decide
    rw [PayloadRef.chunkAt,sampleBlock,hsecond,ok_bind,hlast,ok_bind,sampleBlock,hcheck,
      ok_bind,Nat.one_mul,take_of_length_le hall]
    rfl

theorem firstLong_stored : Stored longSource fenceRoot firstLong (longBytes 97) :=
  @long_stored firstExtents firstEnd 97 (by decide +kernel) (by decide +kernel)
    (by decide +kernel) (by decide +kernel) rfl

theorem secondLong_stored : Stored longSource fenceRoot secondLong (longBytes 98) :=
  @long_stored secondExtents secondEnd 98 (by decide +kernel) (by decide +kernel)
    (by decide +kernel) (by decide +kernel) rfl

/-- Both keys are valid, and the copying comparison of them fails. -/
theorem scoped_comparison_overruns :
    Valid longSource fenceRoot firstLong ∧ Valid longSource fenceRoot secondLong ∧
      compareKeys ⟨longSource.block,true⟩ fenceRoot firstLong secondLong = .error .memory ∧
      ¬ ∃ a b,Stored longSource fenceRoot firstLong a ∧
        Stored longSource fenceRoot secondLong b ∧
        SingleOrder longSource fenceRoot firstLong secondLong a b := by
  have hfirst : Stored ⟨longSource.block,true⟩ fenceRoot firstLong (longBytes 97) :=
    firstLong_stored
  have hsecond : Stored ⟨longSource.block,true⟩ fenceRoot secondLong (longBytes 98) :=
    secondLong_stored
  have hfails:=compareKeys_overrun hfirst hsecond (longBytes_admitted 97) (longBytes_admitted 98)
    rfl (by rw [longBytes_front,longBytes_front])
    (by rw [longBytes_length,longBytes_length]; decide)
  refine ⟨valid_of_ascii firstLong_stored (longBytes_admitted 97) (longBytes_ascii (by decide)),
    valid_of_ascii secondLong_stored (longBytes_admitted 98) (longBytes_ascii (by decide)),
    hfails,?_⟩
  intro ⟨a,b,_,_,hsingle⟩
  have hcopied:=hsingle.1 true
  rw [hfails] at hcopied
  cases hcopied

end Zeppelin.GraphStore.Keys
