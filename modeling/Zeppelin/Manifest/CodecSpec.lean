import Zeppelin.Manifest.FieldSpec

namespace Zeppelin.Manifest
open Format Meta Planner List
open Reader (Reads ensure lift repeated putMany ensure_step lift_step get_step)

variable {bytes input rest : Bytes}

theorem reads_clusteringRange {segment : SegmentMeta} (h : appendRange segment = .ok bytes) :
    Reads clusteringRange bytes segment.clusteringKeyRange := by
  unfold appendRange at h
  cases hrange : segment.clusteringKeyRange with
  | unstamped =>
    rw [hrange] at h
    obtain rfl := Except.ok.inj h
    exact (reads_u8 0).bind ((reads_reservedZeros 7 _).bind ((reads_u64 0).bind
      ((reads_u64 0).quiet (Reads.lift rfl))))
  | empty =>
    rw [hrange] at h
    obtain rfl := Except.ok.inj h
    exact (reads_u8 1).bind ((reads_reservedZeros 7 _).bind ((reads_u64 0).bind
      ((reads_u64 0).quiet (Reads.lift rfl))))
  | bounded minTs maxTs =>
    rw [hrange] at h
    simp only at h
    split_ifs at h with hinverted
    obtain rfl := Except.ok.inj h
    have hvalue : rangeOf 2 minTs maxTs = .ok (.bounded minTs maxTs) := by
      rw [rangeOf,if_neg (by decide),if_neg (by decide),if_pos rfl,if_neg hinverted]
    exact (reads_u8 2).bind ((reads_reservedZeros 7 _).bind ((reads_u64 _).bind
      ((reads_u64 _).quiet (Reads.lift hvalue))))

theorem clusteringRange_ok {range : ClusteringKeyRange} (segment : SegmentMeta)
    (h : clusteringRange input = .ok (range,rest)) :
    ∃ bytes,appendRange { segment with clusteringKeyRange := range } = .ok bytes ∧
      input = bytes++rest := by
  obtain ⟨tag,b1,htag,h⟩ := Reader.bind_ok h
  obtain ⟨⟨⟩,b2,hzeros,h⟩ := Reader.bind_ok h
  obtain ⟨minTs,b3,hminTs,h⟩ := Reader.bind_ok h
  obtain ⟨maxTs,b4,hmaxTs,h⟩ := Reader.bind_ok h
  obtain ⟨hvalue,rfl⟩ := Reader.lift_ok h
  rw [u8_ok htag,reservedZeros_ok hzeros,u64_ok hminTs,u64_ok hmaxTs]
  unfold rangeOf at hvalue
  split_ifs at hvalue with h0 hboth h1 hboth h2 hinverted
  · obtain rfl := Except.ok.inj hvalue
    refine ⟨_,rfl,?_⟩
    rw [h0,hboth.1,hboth.2]
    simp only [append_assoc]
  · obtain rfl := Except.ok.inj hvalue
    refine ⟨_,rfl,?_⟩
    rw [h1,hboth.1,hboth.2]
    simp only [append_assoc]
  · obtain rfl := Except.ok.inj hvalue
    refine ⟨toLe 1 (2 : U8)++(zeros 7++(toLe 8 minTs++toLe 8 maxTs)),?_,?_⟩
    · simp only [appendRange,if_neg hinverted]
    · rw [h2]
      simp only [append_assoc]

theorem appendRange_length (segment : SegmentMeta) (bytes : Bytes)
    (h : appendRange segment = .ok bytes) : bytes.length = 24 := by
  unfold appendRange at h
  split at h
  · obtain rfl := Except.ok.inj h
    simp
  · obtain rfl := Except.ok.inj h
    simp
  · split_ifs at h
    obtain rfl := Except.ok.inj h
    simp

variable {segments : List SegmentMeta} {g : GraphManifest} {objects generation : Bytes}

theorem reads_stampRanges (h : putMany appendRange segments = .ok bytes) :
    Reads (stampRanges (segments.map SegmentMeta.unstamped)) bytes segments := by
  induction segments generalizing bytes with
  | nil =>
    obtain rfl := Except.ok.inj h
    exact Reads.pure []
  | cons segment segments ih =>
    obtain ⟨row,hrow,h⟩ := bind_eq_ok h
    obtain ⟨rows,hrows,rfl⟩ := bind_pure_eq_ok h
    exact (reads_clusteringRange hrow).bind ((ih hrows).last rfl)

variable {base : List SegmentMeta} {object : GraphObject} {bump : U64 × U64}

theorem stampRanges_ok (h : stampRanges base input = .ok (segments,rest)) :
    segments.map SegmentMeta.unstamped = base.map SegmentMeta.unstamped ∧
      ∃ bytes,putMany appendRange segments = .ok bytes ∧ input = bytes++rest := by
  induction base generalizing input segments with
  | nil =>
    obtain ⟨rfl,rfl⟩ := Reader.pure_ok h
    exact ⟨rfl,[],rfl,rfl⟩
  | cons segment base ih =>
    obtain ⟨range,b1,hrange,h⟩ := Reader.bind_ok h
    obtain ⟨others,b2,hothers,h⟩ := Reader.bind_ok h
    obtain ⟨rfl,rfl⟩ := Reader.pure_ok h
    obtain ⟨row,hrow,rfl⟩ := clusteringRange_ok segment hrange
    obtain ⟨hsame,rows,hrows,rfl⟩ := ih hothers
    refine ⟨?_,row++rows,?_,(append_assoc ..).symm⟩
    · rw [map_cons,map_cons,hsame]
      rfl
    · rw [putMany,hrow,ok_bind,hrows,ok_bind]
      rfl

theorem map_unstamped_of_all (h : ∀ segment ∈ segments,segment.clusteringKeyRange = .unstamped) :
    segments.map SegmentMeta.unstamped = segments := by
  refine (map_congr_left fun segment hmem => ?_).trans (map_id segments)
  rw [SegmentMeta.unstamped,← h segment hmem]
  rfl

theorem clusteringRanges_append (h : appendClusteringRanges segments = .ok bytes)
    (hrest : rangeMagic.isPrefixOf rest = false) :
    clusteringRanges (segments.map SegmentMeta.unstamped) (bytes++rest) =
      .ok (segments,rest) := by
  unfold appendClusteringRanges at h
  by_cases hall : (segments.all fun segment => segment.clusteringKeyRange = .unstamped) = true
  · rw [if_pos hall] at h
    obtain rfl := Except.ok.inj h
    have hunstamped : ∀ segment ∈ segments,segment.clusteringKeyRange = .unstamped :=
      fun segment hmem => of_decide_eq_true (all_eq_true.mp hall segment hmem)
    rw [clusteringRanges,nil_append,hrest,map_unstamped_of_all hunstamped]
    rfl
  · rw [if_neg hall] at h
    obtain ⟨count,hcount,h⟩ := bind_eq_ok h
    obtain ⟨ranges,hranges,rfl⟩ := bind_pure_eq_ok h
    obtain ⟨hlt,rfl⟩ := appendU32Len_ok hcount
    have hprefixed : rangeMagic.isPrefixOf (rangeMagic++(toLe 4 (BitVec.ofNat 32 segments.length)++
        ranges)++rest) = true := by
      rw [ isPrefixOf_iff_prefix,append_assoc]
      exact prefix_append _ _
    have hlength:=Reader.putMany_length appendRange_length hranges
    rw [clusteringRanges,if_pos hprefixed,decodeClusteringRanges]
    simp only [append_assoc]
    rw [(reads_take (show rangeMagic.length = 4 from rfl)).step,
      ensure_step (decide_eq_true rfl),(reads_u32 _).step,toNat_length hlt,
      ensure_step (by simp)]
    show (ensure (decide (segments.length*24 ≤ (ranges++rest).length)) _ >>= fun _ => _)
      (ranges++rest) = _
    rw [ensure_step (decide_eq_true (by rw [length_append,hlength]; omega))]
    exact reads_stampRanges hranges rest

theorem clusteringRanges_ok (hbase : ∀ segment ∈ base,segment.clusteringKeyRange = .unstamped)
    (h : clusteringRanges base input = .ok (segments,rest)) :
    segments.map SegmentMeta.unstamped = base ∧ ∃ bytes skipped,
      appendClusteringRanges segments = .ok bytes ∧ input = skipped++rest ∧
        bytes.length ≤ skipped.length := by
  unfold clusteringRanges at h
  split_ifs at h with hmagic
  · obtain ⟨magic,b1,hmagic,h⟩ := Reader.bind_ok h
    obtain ⟨⟨⟩,b2,hsame,h⟩ := Reader.bind_ok h
    obtain ⟨count,b3,hcountWord,h⟩ := Reader.bind_ok h
    obtain ⟨⟨⟩,b4,hcountSame,h⟩ := Reader.bind_ok h
    obtain ⟨left,b5,hleft,h⟩ := Reader.bind_ok h
    obtain ⟨⟨⟩,b6,hroom,h⟩ := Reader.bind_ok h
    obtain ⟨hinput,-⟩ := Reader.take_ok hmagic
    obtain ⟨-,rfl⟩ := Reader.ensure_ok hsame
    obtain ⟨hcountEq,rfl⟩ := Reader.ensure_ok hcountSame
    obtain ⟨-,rfl⟩ := Reader.ensure_ok hroom
    obtain rfl : b3 = b5 := congrArg Prod.snd (Except.ok.inj hleft)
    obtain ⟨hmap,ranges,hranges,hb3⟩ := stampRanges_ok h
    rw [map_unstamped_of_all hbase] at hmap
    have hlength : segments.length = base.length := by rw [← hmap,length_map]
    refine ⟨hmap,?_⟩
    by_cases hall : (segments.all fun segment => segment.clusteringKeyRange = .unstamped) = true
    · refine ⟨[],magic++(toLe 4 count++ranges),?_,?_,Nat.zero_le _⟩
      · rw [appendClusteringRanges,if_pos hall]
      · rw [hinput,u32_ok hcountWord,hb3]
        simp only [append_assoc]
    · refine ⟨rangeMagic++(toLe 4 count++ranges),magic++(toLe 4 count++ranges),?_,?_,?_⟩
      · rw [appendClusteringRanges,if_neg hall,appendU32Len_toNat
          (hlength.trans (of_decide_eq_true hcountEq).symm),ok_bind,hranges,ok_bind]
        rfl
      · rw [hinput,u32_ok hcountWord,hb3]
        simp only [append_assoc]
      · have hmagicLength:=(Reader.take_ok hmagic).2
        simp only [length_append,hmagicLength]
        exact le_refl _
  · obtain ⟨rfl,rfl⟩ := Prod.mk.inj (Except.ok.inj h)
    refine ⟨map_unstamped_of_all hbase,[],[],?_,rfl,le_refl _⟩
    rw [appendClusteringRanges,if_pos]
    exact all_eq_true.mpr fun segment hmem => decide_eq_true (hbase segment hmem)

theorem reads_graphObject (h : appendObject object = .ok bytes) :
    Reads graphObject bytes object := by
  obtain rfl := Except.ok.inj h
  have hartifact : (GraphStore.artifactId object.artifact.get).mapError ManifestError.format =
      .ok object.artifact := by
    rw [GraphStore.artifactId,dif_neg object.artifact.nonzero]
    rfl
  exact (reads_u128 _).bind (Reads.silent (Reads.lift hartifact) ((reads_u64 _).bind
    ((reads_u64 _).last rfl)))

theorem graphObject_ok (h : graphObject input = .ok (object,rest)) :
    ∃ bytes,appendObject object = .ok bytes ∧ input = bytes++rest := by
  obtain ⟨word,b1,hword,h⟩ := Reader.bind_ok h
  obtain ⟨artifact,b2,hartifact,h⟩ := Reader.bind_ok h
  obtain ⟨length,b3,hlength,h⟩ := Reader.bind_ok h
  obtain ⟨checksum,b4,hchecksum,h⟩ := Reader.bind_ok h
  obtain ⟨rfl,rfl⟩ := Reader.pure_ok h
  obtain ⟨hnonzero,rfl⟩ := Reader.lift_ok hartifact
  have hid:=mapError_eq_ok hnonzero
  unfold GraphStore.artifactId at hid
  split_ifs at hid with hzero
  obtain rfl := Except.ok.inj hid
  refine ⟨_,rfl,?_⟩
  rw [u128_ok hword,u64_ok hlength,u64_ok hchecksum]
  simp only [append_assoc]

theorem reads_generationBump (h : appendBump bump = .ok bytes) :
    Reads generationBump bytes bump := by
  obtain rfl := Except.ok.inj h
  exact (reads_u64 _).bind ((reads_u64 _).last rfl)

theorem generationBump_ok (h : generationBump input = .ok (bump,rest)) :
    ∃ bytes,appendBump bump = .ok bytes ∧ input = bytes++rest := by
  obtain ⟨sequence,b1,hsequence,h⟩ := Reader.bind_ok h
  obtain ⟨count,b2,hcount,h⟩ := Reader.bind_ok h
  obtain ⟨rfl,rfl⟩ := Reader.pure_ok h
  refine ⟨_,rfl,?_⟩
  rw [u64_ok hsequence,u64_ok hcount,append_assoc]

theorem appendObject_length (object : GraphObject) (bytes : Bytes)
    (h : appendObject object = .ok bytes) : bytes.length = 32 := by
  obtain rfl := Except.ok.inj h
  simp

theorem appendBump_length (bump : U64 × U64) (bytes : Bytes)
    (h : appendBump bump = .ok bytes) : bytes.length = 16 := by
  obtain rfl := Except.ok.inj h
  simp

theorem repeated_self {α : Type} {put : α → Except ManifestError Bytes} {read : Cursor α}
    {xs : List α} (h : putMany put xs = .ok bytes)
    (hread : ∀ x row,put x = .ok row → Reads read row x) :
    Reads (repeated read xs.length) bytes xs := by
  have hmap:=Reads.repeated (g := id) h fun x _ row hrow => hread x row hrow
  rwa [map_id] at hmap

theorem appendGeneration_length (h : appendGeneration g = .ok bytes) :
    bytes.length = if g.generationAbsorbedThrough.isSome then
      if g.generationBumps.isEmpty then 16 else 24+g.generationBumps.length*16 else 0 := by
  unfold appendGeneration at h
  cases hboundary : g.generationAbsorbedThrough with
  | none =>
    rw [hboundary] at h
    obtain rfl := Except.ok.inj h
    rfl
  | some boundary =>
    rw [hboundary] at h
    simp only at h
    rw [Option.isSome_some,if_pos rfl]
    split_ifs at h with hempty
    · obtain rfl := Except.ok.inj h
      rw [if_pos hempty]
      rfl
    · rw [if_neg hempty]
      obtain ⟨bumps,hbumps,rfl⟩ := bind_pure_eq_ok h
      obtain ⟨count,hcount,h⟩ := bind_eq_ok hbumps
      obtain ⟨rows,hrows,rfl⟩ := bind_pure_eq_ok h
      obtain ⟨-,rfl⟩ := appendU32Len_ok hcount
      have htag : generationBoundaryV2.length = 8 := rfl
      simp only [length_append,toLe_length,zeros_length,htag,
        Reader.putMany_length appendBump_length hrows]
      omega

theorem appendGeneration_fits (h : appendGeneration g = .ok bytes) :
    extensionFits bytes.length = true := by
  rw [appendGeneration_length h,extensionFits,decide_eq_true_eq]
  split_ifs with hsome hempty
  · exact .inr (.inl rfl)
  · have hpos : 0 < g.generationBumps.length := by
      rw [length_pos_iff]
      simpa using hempty
    omega
  · exact .inl rfl

theorem generationRows_append (h : appendGeneration g = .ok bytes)
    (hnone : g.generationAbsorbedThrough = none → g.generationBumps = []) :
    generationRows bytes = .ok ((g.generationAbsorbedThrough,g.generationBumps),[]) := by
  unfold appendGeneration at h
  cases hboundary : g.generationAbsorbedThrough with
  | none =>
    rw [hboundary] at h
    obtain rfl := Except.ok.inj h
    rw [hnone hboundary]
    rfl
  | some boundary =>
    rw [hboundary] at h
    simp only at h
    split_ifs at h with hempty
    · obtain rfl := Except.ok.inj h
      rw [List.isEmpty_iff.mp hempty]
      have hread : Reads generationExtension (generationBoundaryV1++toLe 8 boundary)
          (some boundary,[]) :=
        (reads_take (show generationBoundaryV1.length = 8 from rfl)).bind
          (Reads.silent (Reads.ensure _ rfl) (Reads.silent (Reads.ensure _ rfl)
            ((reads_u64 boundary).quiet (Reads.silent (Reads.pure []) (Reads.pure _)))))
      have hall:=hread []
      rw [append_nil] at hall
      exact hall
    · obtain ⟨bumps,hbumps,rfl⟩ := bind_pure_eq_ok h
      obtain ⟨count,hcount,h⟩ := bind_eq_ok hbumps
      obtain ⟨rows,hrows,rfl⟩ := bind_pure_eq_ok h
      obtain ⟨hlt,rfl⟩ := appendU32Len_ok hcount
      have hlength:=Reader.putMany_length appendBump_length hrows
      have hpos : 0 < g.generationBumps.length := by
        rw [length_pos_iff]
        simpa using hempty
      have hne : BitVec.ofNat 32 g.generationBumps.length ≠ 0 := by
        intro hzero
        have hnat:=congrArg BitVec.toNat hzero
        rw [toNat_length hlt] at hnat
        exact absurd hnat (by simpa using hpos.ne')
      have hrowsRead:=repeated_self hrows fun _ _ => reads_generationBump
      have hbumpsRead : generationBumps (toLe 4 (BitVec.ofNat 32 g.generationBumps.length)++
          (zeros 4++rows)) = .ok (g.generationBumps,[]) := by
        rw [generationBumps,(reads_u32 _).step,show zeros 4 = toLe 4 (0 : U32) from rfl,
          (reads_u32 _).step]
        show (ensure _ _ >>= fun _ => _) rows = _
        rw [ensure_step (decide_eq_true ⟨rfl,hne,by rw [toNat_length hlt,hlength]⟩),
          toNat_length hlt]
        have hall:=hrowsRead []
        rwa [append_nil] at hall
      show generationExtension (generationBoundaryV2++(toLe 8 boundary++_)) = _
      rw [generationExtension,(reads_take (show generationBoundaryV2.length = 8 from rfl)).step,
        ensure_step (by decide),ensure_step (by decide),(reads_u64 boundary).step]
      show (bumpsBehind generationBoundaryV2 _ >>= fun p => Except.ok ((some boundary,p.1),p.2)) = _
      rw [bumpsBehind,if_pos rfl,hbumpsRead]
      rfl

theorem generationRows_ok
    (h : generationRows input = .ok ((g.generationAbsorbedThrough,g.generationBumps),[])) :
    appendGeneration g = .ok input := by
  unfold generationRows at h
  split_ifs at h with hempty
  · obtain ⟨hpair,-⟩ := Prod.mk.inj (Except.ok.inj h)
    obtain ⟨hnone,-⟩ := Prod.mk.inj hpair
    rw [appendGeneration,← hnone,List.isEmpty_iff.mp hempty]
  · obtain ⟨tag,b1,htag,h⟩ := Reader.bind_ok h
    obtain ⟨⟨⟩,b2,hmagic,h⟩ := Reader.bind_ok h
    obtain ⟨⟨⟩,b3,hknown,h⟩ := Reader.bind_ok h
    obtain ⟨boundary,b4,hboundary,h⟩ := Reader.bind_ok h
    obtain ⟨bumps,b5,hbumps,h⟩ := Reader.bind_ok h
    obtain ⟨hpair,rfl⟩ := Reader.pure_ok h
    obtain ⟨hsome,hrowsEq⟩ := Prod.mk.inj hpair
    obtain ⟨hinput,-⟩ := Reader.take_ok htag
    obtain ⟨-,rfl⟩ := Reader.ensure_ok hmagic
    obtain ⟨hversion,rfl⟩ := Reader.ensure_ok hknown
    rw [hinput,u64_ok hboundary]
    unfold bumpsBehind at hbumps
    by_cases htwo : tag = generationBoundaryV2
    · rw [if_pos htwo] at hbumps
      obtain ⟨count,c1,hcount,hbumps⟩ := Reader.bind_ok hbumps
      obtain ⟨reserved,c2,hreserved,hbumps⟩ := Reader.bind_ok hbumps
      obtain ⟨left,c3,hleft,hbumps⟩ := Reader.bind_ok hbumps
      obtain ⟨⟨⟩,c4,hrows,hbumps⟩ := Reader.bind_ok hbumps
      obtain rfl : c2 = c3 := congrArg Prod.snd (Except.ok.inj hleft)
      obtain ⟨hcheck,rfl⟩ := Reader.ensure_ok hrows
      obtain ⟨hzero,hne,-⟩ := of_decide_eq_true hcheck
      obtain ⟨hlength,rows,hput,hc2⟩ :=
        Reader.repeated_ok (fun _ _ _ => generationBump_ok) hbumps
      have hnotempty : g.generationBumps.isEmpty = false := by
        rw [← hrowsEq,isEmpty_eq_false_iff]
        rintro rfl
        refine hne (BitVec.eq_of_toNat_eq ?_)
        rw [← hlength]
        rfl
      rw [appendGeneration,← hsome]
      simp only [hnotempty,Bool.false_eq_true,if_false]
      rw [appendBumps,← hrowsEq,appendU32Len_toNat hlength,ok_bind,hput,ok_bind,
        u32_ok hcount,u32_ok hreserved,hc2,hzero,htwo,append_nil]
      rfl
    · have hone : tag = generationBoundaryV1 := (of_decide_eq_true hversion).resolve_right htwo
      rw [if_neg htwo] at hbumps
      obtain ⟨rfl,rfl⟩ := Reader.pure_ok hbumps
      rw [appendGeneration,← hsome,← hrowsEq,hone]
      simp only [isEmpty_nil,if_true,append_nil]

/-- The body of a section: everything between its length and its checksum. -/
def sectionBody (g : GraphManifest) (objects generation : Bytes) : Bytes :=
  toLe 1 (1 : U8)++(zeros 7++(toLe 8 g.graphAbsorbedThrough++
    (toLe 4 (BitVec.ofNat 32 g.stateBytes.length)++(g.stateBytes++
      (toLe 4 (BitVec.ofNat 32 g.objects.length)++(objects++generation))))))

structure SectionParts (g : GraphManifest) (objects generation : Bytes) : Prop where
  state : g.stateBytes.length < 2^32
  count : g.objects.length < 2^32
  objectBytes : putMany appendObject g.objects = .ok objects
  generationBytes : appendGeneration g = .ok generation
  size : (sectionBody g objects generation).length < 2^32

theorem SectionParts.length (hobjects : putMany appendObject g.objects = .ok objects)
    (hgeneration : appendGeneration g = .ok generation) :
    (sectionBody g objects generation).length = sectionLength g := by
  simp only [sectionBody,length_append,toLe_length,zeros_length,sectionLength,
    Reader.putMany_length appendObject_length hobjects,appendGeneration_length hgeneration]
  omega

theorem appendSection_ok (h : appendSection g = .ok bytes) :
    ∃ objects generation,SectionParts g objects generation ∧
      bytes = graphMagic++(toLe 4 (BitVec.ofNat 32 (sectionBody g objects generation).length)++
        sectionBody g objects generation) := by
  obtain ⟨length,hlength,h⟩ := bind_eq_ok h
  obtain ⟨stateLength,hstateLength,h⟩ := bind_eq_ok h
  obtain ⟨objectCount,hobjectCount,h⟩ := bind_eq_ok h
  obtain ⟨objects,hobjects,h⟩ := bind_eq_ok h
  obtain ⟨generation,hgeneration,rfl⟩ := bind_pure_eq_ok h
  obtain ⟨hsize,rfl⟩ := appendU32Len_ok hlength
  obtain ⟨hstate,rfl⟩ := appendU32Len_ok hstateLength
  obtain ⟨hcount,rfl⟩ := appendU32Len_ok hobjectCount
  have hbody:=SectionParts.length hobjects hgeneration
  refine ⟨objects,generation,⟨hstate,hcount,hobjects,hgeneration,by rwa [hbody]⟩,?_⟩
  rw [hbody]
  rfl

theorem SectionParts.append (h : SectionParts g objects generation) : appendSection g =
      .ok (graphMagic++(toLe 4 (BitVec.ofNat 32 (sectionBody g objects generation).length)++
        sectionBody g objects generation)) := by
  have hbody:=SectionParts.length h.objectBytes h.generationBytes
  have hsize : sectionLength g < 2^32 := hbody ▸ h.size
  simp only [appendSection,appendU32Len,if_pos hsize,if_pos h.state,if_pos h.count,
    h.objectBytes,h.generationBytes,ok_bind]
  rw [hbody]
  rfl

theorem graphBody_body (h : SectionParts g objects generation)
    (hnone : g.generationAbsorbedThrough = none → g.generationBumps = []) :
    graphBody (sectionBody g objects generation) = .ok (g,[]) := by
  have hstate : appendBytes g.stateBytes =
      .ok (toLe 4 (BitVec.ofNat 32 g.stateBytes.length)++g.stateBytes) := by
    rw [appendBytes,appendU32Len,if_pos h.state,ok_bind]
    rfl
  have hobjects:=repeated_self h.objectBytes fun _ _ => reads_graphObject
  have hlength:=Reader.putMany_length appendObject_length h.objectBytes
  have hleft : (objects++generation).length-g.objects.length*32 = generation.length := by
    rw [length_append,hlength]
    omega
  rw [graphBody,sectionBody,(reads_u8 1).step,ensure_step (decide_eq_true rfl),
    (reads_reservedZeros 7 _).step,(reads_u64 _).step,← append_assoc (toLe 4 _) g.stateBytes,
    (reads_bytesField hstate).step,(reads_u32 _).step,toNat_length h.count]
  show (ensure (decide (g.objects.length*32 ≤ (objects++generation).length ∧
    extensionFits ((objects++generation).length-g.objects.length*32) = true)) _ >>= fun _ => _)
      (objects++generation) = _
  rw [ensure_step (decide_eq_true ⟨by rw [length_append,hlength]; omega,
    by rw [hleft]; exact appendGeneration_fits h.generationBytes⟩),hobjects.step]
  show (generationRows generation >>= fun p => (finish >>= fun _ => _) p.2) = _
  rw [generationRows_append h.generationBytes hnone]
  rfl

theorem finish_ok {u : Unit} (h : finish input = .ok (u,rest)) : input = [] ∧ rest = [] := by
  unfold finish at h
  split_ifs at h with hempty
  have hnil:=List.isEmpty_iff.mp hempty
  have hrest : input = rest := congrArg Prod.snd (Except.ok.inj h)
  exact ⟨hnil,hrest ▸ hnil⟩

theorem graphBody_ok (hsize : input.length < 2^32) (h : graphBody input = .ok (g,rest)) :
    ∃ objects generation,SectionParts g objects generation ∧
      input = sectionBody g objects generation := by
  obtain ⟨presence,b1,hpresence,h⟩ := Reader.bind_ok h
  obtain ⟨⟨⟩,b2,hone,h⟩ := Reader.bind_ok h
  obtain ⟨⟨⟩,b3,hzeros,h⟩ := Reader.bind_ok h
  obtain ⟨absorbed,b4,habsorbed,h⟩ := Reader.bind_ok h
  obtain ⟨state,b5,hstate,h⟩ := Reader.bind_ok h
  obtain ⟨count,b6,hcount,h⟩ := Reader.bind_ok h
  obtain ⟨left,b7,hleft,h⟩ := Reader.bind_ok h
  obtain ⟨⟨⟩,b8,hroom,h⟩ := Reader.bind_ok h
  obtain ⟨objects,b9,hobjects,h⟩ := Reader.bind_ok h
  obtain ⟨generation,b10,hgeneration,h⟩ := Reader.bind_ok h
  obtain ⟨⟨⟩,b11,hfinish,h⟩ := Reader.bind_ok h
  obtain ⟨hg,-⟩ := Reader.pure_ok h
  obtain ⟨hpresent,rfl⟩ := Reader.ensure_ok hone
  obtain rfl : b6 = b7 := congrArg Prod.snd (Except.ok.inj hleft)
  obtain ⟨-,rfl⟩ := Reader.ensure_ok hroom
  obtain ⟨rfl,-⟩ := finish_ok hfinish
  obtain ⟨stateBytes,hstateBytes,hb4⟩ := bytesField_ok hstate
  obtain ⟨stateLength,hstateLength,rfl⟩ := bind_pure_eq_ok hstateBytes
  obtain ⟨hstateLt,rfl⟩ := appendU32Len_ok hstateLength
  obtain ⟨hlength,objectBytes,hobjectBytes,hb6⟩ :=
    Reader.repeated_ok (fun _ _ _ => graphObject_ok) hobjects
  have hcountLt : objects.length < 2^32 := hlength ▸ count.isLt
  have hcountWord : BitVec.ofNat 32 objects.length = count := by
    rw [hlength,BitVec.ofNat_toNat,BitVec.setWidth_eq]
  subst hg
  have hgenerationBytes : appendGeneration
      ⟨state,absorbed,generation.1,generation.2,objects⟩ = .ok b9 :=
    generationRows_ok hgeneration
  have hinput : input = sectionBody ⟨state,absorbed,generation.1,generation.2,objects⟩
      objectBytes b9 := by
    rw [u8_ok hpresence,of_decide_eq_true hpresent,reservedZeros_ok hzeros,u64_ok habsorbed,hb4,
      u32_ok hcount,hb6,sectionBody]
    simp only [append_assoc,hcountWord]
  exact ⟨objectBytes,b9,⟨hstateLt,hcountLt,hobjectBytes,hgenerationBytes,hinput ▸ hsize⟩,
    hinput⟩

section Checksum
variable {xxh3 : Bytes → U64}

def sectionFrame (body : Bytes) : Bytes :=
  graphMagic++(toLe 4 (BitVec.ofNat 32 body.length)++body)

variable {body payload : Bytes} {m : Manifest} {version : U16}

theorem reads_graphSection (h : body.length < 2^32) :
    Reads (graphSection xxh3) (sectionFrame body++toLe 8 (xxh3 (sectionFrame body))) body := by
  intro rest
  set checksum := toLe 8 (xxh3 (sectionFrame body)) with hchecksum
  have hfrom : ∀ start,start.take (start.length-(checksum++rest).length) = sectionFrame body →
      graphSectionFrom xxh3 start (graphMagic++(toLe 4 (BitVec.ofNat 32 body.length)++
        (body++(checksum++rest)))) = .ok (body,rest) := by
    intro start hstart
    rw [graphSectionFrom,(reads_take (show graphMagic.length = 4 from rfl)).step,
      ensure_step (decide_eq_true rfl),(reads_u32 _).step,
      (reads_take (toNat_length h).symm).step,get_step,hchecksum,(reads_u64 _).step,
      ensure_step (decide_eq_true (congrArg xxh3 hstart))]
    rfl
  have hframe : sectionFrame body++checksum++rest = graphMagic++
      (toLe 4 (BitVec.ofNat 32 body.length)++(body++(checksum++rest))) := by
    simp only [sectionFrame,append_assoc]
  have hstart:=hfrom (sectionFrame body++checksum++rest) (by
    rw [append_assoc,length_append,Nat.add_sub_cancel,take_left])
  rwa [← hframe] at hstart

theorem graphSection_ok (h : graphSection xxh3 input = .ok (body,rest)) : body.length < 2^32 ∧
      input = sectionFrame body++(toLe 8 (xxh3 (sectionFrame body))++rest) := by
  unfold graphSection graphSectionFrom at h
  obtain ⟨magic,b1,hmagic,h⟩ := Reader.bind_ok h
  obtain ⟨⟨⟩,b2,hsame,h⟩ := Reader.bind_ok h
  obtain ⟨length,b3,hlength,h⟩ := Reader.bind_ok h
  obtain ⟨field,b4,hfield,h⟩ := Reader.bind_ok h
  rw [get_step] at h
  obtain ⟨checksum,b5,hchecksum,h⟩ := Reader.bind_ok h
  obtain ⟨⟨⟩,b6,hequal,h⟩ := Reader.bind_ok h
  obtain ⟨rfl,rfl⟩ := Reader.pure_ok h
  obtain ⟨hinput,-⟩ := Reader.take_ok hmagic
  obtain ⟨hmagicEq,rfl⟩ := Reader.ensure_ok hsame
  obtain ⟨hb3,hfieldLength⟩ := Reader.take_ok hfield
  obtain ⟨hxxh3,rfl⟩ := Reader.ensure_ok hequal
  have hword : BitVec.ofNat 32 field.length = length := by
    rw [hfieldLength,BitVec.ofNat_toNat,BitVec.setWidth_eq]
  have hframe : input = sectionFrame field++b4 := by
    rw [hinput,of_decide_eq_true hmagicEq,u32_ok hlength,hb3,sectionFrame,hword]
    simp only [append_assoc]
  have hstart : input.take (input.length-b4.length) = sectionFrame field := by
    rw [hframe,length_append,Nat.add_sub_cancel,take_left]
  have hsum:=of_decide_eq_true hxxh3
  rw [hstart] at hsum
  refine ⟨hfieldLength ▸ length.isLt,?_⟩
  rw [hframe,u64_ok hchecksum,hsum]

theorem reads_decodeGraph {g : GraphManifest} (h : appendGraph xxh3 g = .ok bytes) :
    Reads (decodeGraph xxh3) bytes g := by
  obtain ⟨⟨⟩,hvalid,h⟩ := bind_eq_ok h
  obtain ⟨written,hwritten,rfl⟩ := bind_pure_eq_ok h
  obtain ⟨objects,generation,hparts,rfl⟩ := appendSection_ok hwritten
  have hbody:=graphBody_body hparts (GraphManifest.bumps_eq_nil_of_validate hvalid)
  exact (reads_graphSection hparts.size).quiet (Reads.silent (Reads.lift hbody)
    (Reads.silent (Reads.lift hvalid) (Reads.pure g)))

theorem decodeGraph_ok {g : GraphManifest} (h : decodeGraph xxh3 input = .ok (g,rest)) :
    ∃ bytes,appendGraph xxh3 g = .ok bytes ∧ input = bytes++rest := by
  obtain ⟨body,b1,hsection,h⟩ := Reader.bind_ok h
  obtain ⟨decoded,b2,hdecoded,h⟩ := Reader.bind_ok h
  obtain ⟨⟨⟩,b3,hvalid,h⟩ := Reader.bind_ok h
  obtain ⟨rfl,rfl⟩ := Reader.pure_ok h
  obtain ⟨hbody,rfl⟩ := Reader.lift_ok hdecoded
  obtain ⟨hvalidate,rfl⟩ := Reader.lift_ok hvalid
  obtain ⟨hsize,rfl⟩ := graphSection_ok hsection
  obtain ⟨objects,generation,hparts,rfl⟩ := graphBody_ok hsize hbody
  refine ⟨_,?_,(append_assoc ..).symm⟩
  rw [appendGraph,hvalidate,ok_bind,hparts.append,ok_bind]
  rfl

theorem optionalGraph_append {graph : Bytes} (h : appendOptionalGraph xxh3 m.graph = .ok graph) :
    Reads (optionalGraph xxh3 (manifestVersion m)) graph m.graph ∧
      rangeMagic.isPrefixOf graph = false := by
  unfold manifestVersion
  cases hgraph : m.graph with
  | none =>
    rw [hgraph] at h
    obtain rfl := Except.ok.inj h
    exact ⟨Reads.pure none,rfl⟩
  | some g =>
    rw [hgraph] at h
    refine ⟨(reads_decodeGraph h).last rfl,?_⟩
    obtain ⟨⟨⟩,-,h⟩ := bind_eq_ok h
    obtain ⟨written,hwritten,rfl⟩ := bind_pure_eq_ok h
    obtain ⟨objects,generation,-,rfl⟩ := appendSection_ok hwritten
    rfl

theorem optionalGraph_ok {graph : Option GraphManifest}
    (h : optionalGraph xxh3 version input = .ok (graph,rest)) :
    ∃ bytes,appendOptionalGraph xxh3 graph = .ok bytes ∧ input = bytes++rest := by
  unfold optionalGraph at h
  split_ifs at h with hversion
  · obtain ⟨g,b1,hg,h⟩ := Reader.bind_ok h
    obtain ⟨rfl,rfl⟩ := Reader.pure_ok h
    exact decodeGraph_ok hg
  · obtain ⟨rfl,rfl⟩ := Reader.pure_ok h
    exact ⟨[],rfl,rfl⟩

theorem BuiltSchema.new_userColumns (schema : BuiltSchema) :
    BuiltSchema.new schema.schema.userColumns = .ok schema := by
  unfold BuiltSchema.new
  split
  · rename_i s hs
    have hsame : s = schema.schema := by
      rw [schema.built] at hs
      exact (Except.ok.inj hs).symm
    subst hsame
    rfl
  · rename_i e he
    rw [schema.built] at he
    cases he

theorem BuiltSchema.userColumns_of_new {definitions : List ColumnDefinition} {schema : BuiltSchema}
    (h : BuiltSchema.new definitions = .ok schema) : schema.schema.userColumns = definitions := by
  unfold BuiltSchema.new at h
  split at h
  · rename_i s hs
    obtain rfl := Except.ok.inj h
    obtain ⟨hcolumns,-⟩ := Schema.new_ok_iff.mp hs
    rw [Schema.userColumns,hcolumns]
    rfl
  · cases h

theorem manifestPayload_encode (hregistered : ∀ segment ∈ m.segments,segment.Registered)
    (h : encodePayload xxh3 m = .ok payload) :
    manifestPayload xxh3 (manifestVersion m) payload = .ok (m,[]) := by
  obtain ⟨segmentCount,hsegmentCount,h⟩ := bind_eq_ok h
  obtain ⟨epochCount,hepochCount,h⟩ := bind_eq_ok h
  obtain ⟨schemaCount,hschemaCount,h⟩ := bind_eq_ok h
  obtain ⟨segments,hsegments,h⟩ := bind_eq_ok h
  obtain ⟨epochs,hepochs,h⟩ := bind_eq_ok h
  obtain ⟨columns,hcolumns,h⟩ := bind_eq_ok h
  obtain ⟨ranges,hranges,h⟩ := bind_eq_ok h
  obtain ⟨graph,hgraph,rfl⟩ := bind_pure_eq_ok h
  obtain ⟨hsegmentLt,rfl⟩ := appendU32Len_ok hsegmentCount
  obtain ⟨hepochLt,rfl⟩ := appendU32Len_ok hepochCount
  obtain ⟨hschemaLt,rfl⟩ := appendU32Len_ok hschemaCount
  have hsegmentsRead:=Reads.repeated hsegments fun segment hmem row hrow =>
    reads_segment (hregistered segment hmem) hrow
  have hepochsRead:=repeated_self hepochs fun _ _ => reads_epochMeta
  have hcolumnsRead:=repeated_self hcolumns fun _ _ => reads_columnDefinition
  obtain ⟨hgraphRead,hmagic⟩ := optionalGraph_append hgraph
  have hrangesRead:=clusteringRanges_append hranges hmagic
  have hgraphAll:=hgraphRead []
  rw [append_nil] at hgraphAll
  rw [manifestPayload,(reads_u64 _).step,(reads_u64 _).step,(reads_u32 _).step,
    (reads_u32 _).step,(reads_u32 _).step,(reads_u32 _).step,ensure_step (decide_eq_true rfl),
    (reads_optionalIdentity _).step,toNat_length hsegmentLt,hsegmentsRead.step,
    toNat_length hepochLt,hepochsRead.step,toNat_length hschemaLt,hcolumnsRead.step]
  show (clusteringRanges _ (ranges++graph) >>= fun p => (optionalGraph _ _ >>= fun _ => _) p.2) = _
  rw [hrangesRead,ok_bind]
  show (optionalGraph _ _ graph >>= fun p => (finish >>= fun _ => _) p.2) = _
  rw [hgraphAll,ok_bind]
  have hschema : ∀ f : BuiltSchema → Cursor Manifest,
      (finish >>= fun _ => lift (BuiltSchema.new m.schema.schema.userColumns) >>= f) [] =
        f m.schema [] := fun f => by
    show (lift (BuiltSchema.new m.schema.schema.userColumns) >>= f) [] = _
    exact lift_step (BuiltSchema.new_userColumns m.schema)
  exact hschema _

theorem manifestPayload_ok (h : manifestPayload xxh3 version payload = .ok (m,rest)) :
    (∀ segment ∈ m.segments,segment.Registered) ∧
      ∃ again,encodePayload xxh3 m = .ok again ∧ again.length ≤ payload.length := by
  obtain ⟨generation,b1,hgeneration,h⟩ := Reader.bind_ok h
  obtain ⟨logSeq,b2,hlogSeq,h⟩ := Reader.bind_ok h
  obtain ⟨segmentCount,b3,hsegmentCount,h⟩ := Reader.bind_ok h
  obtain ⟨epochCount,b4,hepochCount,h⟩ := Reader.bind_ok h
  obtain ⟨schemaCount,b5,hschemaCount,h⟩ := Reader.bind_ok h
  obtain ⟨reserved,b6,hreserved,h⟩ := Reader.bind_ok h
  obtain ⟨⟨⟩,b7,hzero,h⟩ := Reader.bind_ok h
  obtain ⟨epochAlias,b8,hepochAlias,h⟩ := Reader.bind_ok h
  obtain ⟨base,b9,hbase,h⟩ := Reader.bind_ok h
  obtain ⟨epochs,b10,hepochs,h⟩ := Reader.bind_ok h
  obtain ⟨definitions,b11,hdefinitions,h⟩ := Reader.bind_ok h
  obtain ⟨segments,b12,hsegments,h⟩ := Reader.bind_ok h
  obtain ⟨graph,b13,hgraph,h⟩ := Reader.bind_ok h
  obtain ⟨⟨⟩,b14,hfinish,h⟩ := Reader.bind_ok h
  obtain ⟨schema,b15,hschema,h⟩ := Reader.bind_ok h
  obtain ⟨rfl,-⟩ := Reader.pure_ok h
  obtain ⟨hreservedZero,rfl⟩ := Reader.ensure_ok hzero
  obtain ⟨hschemaNew,-⟩ := Reader.lift_ok hschema
  obtain ⟨rfl,-⟩ := finish_ok hfinish
  obtain ⟨hbaseLength,segmentBytes,hsegmentBytes,hb8⟩ :=
    Reader.repeated_ok (fun _ _ _ hread => (segment_ok hread).2.2) hbase
  obtain ⟨hepochLength,epochBytes,hepochBytes,hb9⟩ :=
    Reader.repeated_ok (fun _ _ _ => epochMeta_ok) hepochs
  obtain ⟨hschemaLength,columnBytes,hcolumnBytes,hb10⟩ :=
    Reader.repeated_ok (fun _ _ _ => columnDefinition_ok) hdefinitions
  have hregistered : ∀ segment ∈ base,segment.Registered :=
    Reader.repeated_all (fun _ _ _ hread => (segment_ok hread).1) hbase
  have hunstamped : ∀ segment ∈ base,segment.clusteringKeyRange = .unstamped :=
    Reader.repeated_all (fun _ _ _ hread => (segment_ok hread).2.1) hbase
  obtain ⟨hmap,rangeBytes,skipped,hrangeBytes,hb11,hskipped⟩ :=
    clusteringRanges_ok hunstamped hsegments
  obtain ⟨graphBytes,hgraphBytes,hb12⟩ := optionalGraph_ok hgraph
  -- the row of a segment does not depend on its range
  have hrows : putMany appendSegment segments = .ok segmentBytes := by
    rw [← hmap,Reader.putMany_map] at hsegmentBytes
    exact hsegmentBytes
  have hsegmentLength : segments.length = segmentCount.toNat := by
    rw [← hbaseLength,← hmap,length_map]
  have huser:=BuiltSchema.userColumns_of_new hschemaNew
  refine ⟨fun segment hmem => ?_,?_⟩
  · exact hregistered segment.unstamped (hmap ▸ mem_map_of_mem hmem)
  · refine ⟨toLe 8 generation++(toLe 8 logSeq++(toLe 4 segmentCount++(toLe 4 epochCount++
      (toLe 4 schemaCount++(toLe 4 (0 : U32)++(appendOptionalIdentity epochAlias++
        (segmentBytes++(epochBytes++(columnBytes++(rangeBytes++graphBytes)))))))))),?_,?_⟩
    · simp only [encodePayload,huser,appendU32Len_toNat hsegmentLength,
        appendU32Len_toNat hepochLength,appendU32Len_toNat hschemaLength,hrows,hepochBytes,
        hcolumnBytes,hrangeBytes,hgraphBytes,ok_bind]
      rfl
    · rw [u64_ok hgeneration,u64_ok hlogSeq,u32_ok hsegmentCount,u32_ok hepochCount,
        u32_ok hschemaCount,u32_ok hreserved,optionalIdentity_ok hepochAlias,hb8,hb9,hb10,hb11,
        hb12]
      simp only [length_append,toLe_length]
      omega

theorem require_version (m : Manifest) :
    ∃ spec,require FormatFamily.manifest.id (manifestVersion m) = .ok spec := by
  unfold manifestVersion
  split_ifs
  · exact ⟨_,rfl⟩
  · exact ⟨_,rfl⟩

theorem decodeManifest_encode (hregistered : ∀ segment ∈ m.segments,segment.Registered)
    (h : encodeManifest xxh3 m = .ok bytes) : decodeManifest xxh3 bytes = .ok m := by
  obtain ⟨⟨⟩,hvalid,h⟩ := bind_eq_ok h
  obtain ⟨payload,hpayload,h⟩ := bind_eq_ok h
  split_ifs at h with hsize
  obtain rfl := Except.ok.inj h
  obtain ⟨spec,hspec⟩ := require_version m
  rw [decodeManifest,decodeArtifact_encode hspec (not_le.mp hsize)]
  show (if (0 : U32) ≠ 0 then fail .flags
    else manifestPayload xxh3 (manifestVersion m) payload >>= fun decoded => _) = _
  rw [if_neg (not_not.mpr rfl),manifestPayload_encode hregistered hpayload,ok_bind,hvalid]
  rfl

theorem decodeManifest_ok (h : decodeManifest xxh3 bytes = .ok m) :
    (∀ segment ∈ m.segments,segment.Registered) ∧ ∃ again,encodeManifest xxh3 m = .ok again := by
  obtain ⟨framed,hframed,h⟩ := bind_eq_ok h
  obtain ⟨hlength,hlt,-⟩ := decodeArtifact_ok (mapError_eq_ok hframed)
  split_ifs at h with hflags
  obtain ⟨⟨decoded,rest⟩,hdecoded,h⟩ := bind_eq_ok h
  obtain ⟨⟨⟩,hvalid,rfl⟩ := bind_pure_eq_ok h
  obtain ⟨hregistered,again,hagain,hshorter⟩ := manifestPayload_ok hdecoded
  refine ⟨hregistered,encodeArtifactVersion xxh3 .manifest (manifestVersion decoded) 0 again,?_⟩
  rw [encodeManifest,hvalid,ok_bind,hagain,ok_bind,if_neg (by omega)]
  rfl

/-- A manifest is read back exactly when every segment has a scheme that readers know; what a
reader accepts is always written and read again. -/
theorem manifest_round_trip (xxh3 : Bytes → U64) :
    (∀ m bytes,encodeManifest xxh3 m = .ok bytes →
      (decodeManifest xxh3 bytes = .ok m ↔ ∀ segment ∈ m.segments,segment.Registered)) ∧
    ∀ bytes m,decodeManifest xxh3 bytes = .ok m →
      ∃ again,encodeManifest xxh3 m = .ok again ∧ decodeManifest xxh3 again = .ok m := by
  constructor
  · intro m bytes h
    exact ⟨fun hdecode => (decodeManifest_ok hdecode).1,fun hall => decodeManifest_encode hall h⟩
  · intro bytes m h
    obtain ⟨hregistered,again,hagain⟩ := decodeManifest_ok h
    exact ⟨again,hagain,decodeManifest_encode hregistered hagain⟩

end Checksum

def retiredManifest : Manifest where
  graph := none
  generation := 1
  logSeq := 1
  segments := [⟨⟨List.replicate 16 0,rfl⟩,1,3,4,4096,none,.unstamped⟩]
  epochs := []
  epochAlias := none
  schema := ⟨Schema.timestampOnly,rfl⟩

/-- Whatever the checksum, the writer accepts a scheme that the reader refuses. -/
theorem unreadable_manifest : ¬ ∃ xxh3 : Bytes → U64,∀ m bytes,
    encodeManifest xxh3 m = .ok bytes → decodeManifest xxh3 bytes = .ok m := by
  rintro ⟨xxh3,hall⟩
  have hencode : ∃ bytes,encodeManifest xxh3 retiredManifest = .ok bytes := ⟨_,rfl⟩
  obtain ⟨bytes,hbytes⟩ := hencode
  have hregistered:=(decodeManifest_ok (hall _ _ hbytes)).1
  exact absurd (hregistered _ mem_cons_self) (by decide)

end Zeppelin.Manifest
