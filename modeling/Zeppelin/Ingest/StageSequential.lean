import Zeppelin.Ingest.LiveRuns
import Zeppelin.Ingest.StageUpserts

namespace Zeppelin.Ingest
open Wal Fts Meta Planner List

section Killed
variable {schema : Schema} {segments : List (SealedSegment schema)} {predicate : Predicate}
  {dead dead' : DocId → Bool} {docId : DocId}

theorem kill_congr {content : SealedRows}
    (h : ∀ version ∈ content.versions,dead version.docId = dead' version.docId) :
    content.kill dead = content.kill dead' := by
  refine kill_eq rfl rfl ?_
  intro row
  rw [mem_kill_alive,mem_kill_alive]
  apply and_congr_right
  intro _
  apply forall_congr'
  intro version
  apply imp_congr_right
  intro hversion
  rw [h version (mem_of_getElem? hversion)]

theorem killed_kill : (killed segments dead).map (SealedRows.kill dead') =
    killed segments fun id => dead id || dead' id := by
  rw [killed,map_map]
  apply map_congr_left
  intro segment _
  exact kill_kill segment.content dead dead'

theorem killed_none : killed segments (fun _ => false) = segments.map SealedSegment.content := by
  apply map_congr_left
  intro segment _
  exact kill_none segment.content

theorem matches_kill {segment : SealedSegment schema} :
    (segment.content.kill dead).matches predicate docId = true ↔
      dead docId = false ∧ segment.content.matches predicate docId = true := by
  rw [matches_sealed,matches_sealed]
  have hbound:=segment.rows_lt
  have halive : ∀ row : ℕ,row < segment.rows.length →
      (∃ version,segment.versions[row]? = some version ∧ version.docId = docId) →
      (BitVec.ofNat 32 row ∈ (segment.content.kill dead).alive ↔
        dead docId = false ∧ BitVec.ofNat 32 row ∈ segment.content.alive) := by
    intro row hrow ⟨version,hversion,hid⟩
    have hnat : (BitVec.ofNat 32 row).toNat = row := by
      rw [BitVec.toNat_ofNat,Nat.mod_eq_of_lt (by omega)]
    have hcontent : segment.content.versions[row]? = some version := hversion
    rw [mem_kill_alive,hnat,hcontent,and_comm]
    apply and_congr_left
    intro _
    constructor
    · intro hdead
      rw [← hid]
      exact hdead version rfl
    · intro hdead other hother
      rw [← Option.some.inj hother,hid]
      exact hdead
  constructor
  · intro ⟨row,hrow,hmem,hversion,hmatch⟩
    obtain ⟨hdead,hmem⟩ := (halive row hrow hversion).mp hmem
    exact ⟨hdead,row,hrow,hmem,hversion,hmatch⟩
  · intro ⟨hdead,row,hrow,hmem,hversion,hmatch⟩
    exact ⟨row,hrow,(halive row hrow hversion).mpr ⟨hdead,hmem⟩,hversion,hmatch⟩

end Killed

section Active
variable {analyze : String → List Token} {texts : List (Option String)} {s t : ActiveSegment}
  {dead dead' : DocId → Bool} {predicate : Predicate} {docId : DocId}

theorem isTombstoned_kill (hrows : s.docIds.length ≤ 2^32) {row : ℕ} (hrow : row < 2^32) :
    (s.kill dead).isTombstoned row = true ↔ s.isTombstoned row = true ∨
      ∃ docId,s.docIds[row]? = some docId ∧ dead docId = true := by
  rw [isTombstoned_iff,isTombstoned_iff,mem_kill hrows hrow,and_iff_right hrow,
    and_iff_right hrow]

theorem SameRows.matches (h : SameRows s t) : s.matches predicate docId = t.matches predicate docId := by
  have hmeta : ∀ row,s.metaRow row = t.metaRow row := by
    intro row
    rw [h.rows]
    rfl
  have hids : s.docIds = t.docIds := by rw [h.rows]
  unfold ActiveSegment.matches
  rw [hids]
  apply congrArg fun keeps => (List.range t.docIds.length).any keeps
  funext row
  rw [hmeta,h.dead]

theorem matches_kill_active (hsound : s.Sound analyze texts) :
    (s.kill dead).matches predicate docId = true ↔
      dead docId = false ∧ s.matches predicate docId = true := by
  rw [matches_active,matches_active]
  have hlive : ∀ row : ℕ,row < s.docIds.length → s.docIds[row]? = some docId →
      ((s.kill dead).isTombstoned row = false ↔ dead docId = false ∧ s.isTombstoned row = false) := by
    intro row hrow hid
    have hbound:=hsound.rows_le
    rw [← Bool.not_eq_true,isTombstoned_kill hbound (by omega),not_or,Bool.not_eq_true,and_comm]
    apply and_congr_left
    intro _
    rw [hid]
    simp
  constructor
  · intro ⟨row,hrow,hid,hmem,hmatch⟩
    obtain ⟨hdead,hmem⟩ := (hlive row hrow hid).mp hmem
    exact ⟨hdead,row,hrow,hid,hmem,hmatch⟩
  · intro ⟨hdead,row,hrow,hid,hmem,hmatch⟩
    exact ⟨row,hrow,hid,(hlive row hrow hid).mpr ⟨hdead,hmem⟩,hmatch⟩

theorem kill_kill_active (hrows : s.docIds.length ≤ 2^32) :
    SameRows ((s.kill dead).kill dead') (s.kill fun id => dead id || dead' id) := by
  refine sameRows_kill hrows rfl ?_
  intro row hrow
  have hkilled : (s.kill dead).docIds.length ≤ 2^32 := hrows
  have hids : (s.kill dead).docIds = s.docIds := rfl
  rw [mem_kill hkilled hrow,mem_kill hrows hrow,hids,or_assoc]
  apply or_congr_right
  rw [← exists_or]
  apply exists_congr
  intro docId
  rw [← and_or_left,Bool.or_eq_true]

theorem SameRows.kill_none (s : ActiveSegment) : SameRows (s.kill fun _ => false) s := by
  have hempty : (s.docIds.zipIdx.filter fun _ => false) = [] := filter_false _
  have hsame : s.kill (fun _ => false) = s := by
    unfold ActiveSegment.kill
    rw [hempty,map_nil,append_nil]
  rw [hsame]
  exact .refl s

end Active

section Upserts
variable {quantizeBit4 : List U32 → Bytes → Except QuantError (Bytes × Bit4Factors)}
  {analyze : String → List Token} {texts : List (Option String)} {schema : Schema}
  {segments : List (SealedSegment schema)} {ids : List DocId} {absorbedThrough : U64}
  {sealedView : SealedView} {current s next : ActiveSegment} {d : IngestDocument} {row : ℕ}
  {progress progress' : RevisionProgress} {c : Collection}

def ActiveSegment.weight (s : ActiveSegment) : ℕ :=
  (s.revisions.map fun revision => revision.toNat+1).sum

theorem sum_set_lt {values : List ℕ} {old value : ℕ} (hold : values[row]? = some old)
    (hlt : old < value) : values.sum < (values.set row value).sum := by
  induction values generalizing row with
  | nil => cases hold
  | cons first values ih =>
    cases row with
    | zero =>
      obtain rfl := Option.some.inj hold
      rw [set_cons_zero,sum_cons,sum_cons]
      omega
    | succ row =>
      have hrest : values.sum < (values.set row value).sum := ih hold
      rw [set_cons_succ,sum_cons,sum_cons]
      omega

theorem Writes.weight_lt (h : Writes quantizeBit4 analyze s d next row)
    (hsound : s.Sound analyze texts) : s.weight < next.weight := by
  unfold ActiveSegment.weight
  cases h with
  | insert new wrote =>
    obtain ⟨rows,hrows,hnext,-⟩ := hsound.insertInPlace new wrote
    obtain ⟨-,-,happend⟩ := ActiveSegment.insertRowInPlace_ok hrows
    rw [hnext]
    dsimp only
    rw [happend.revisions,map_append,sum_append,map_singleton,sum_singleton]
    omega
  | replace old document newer wrote =>
    obtain ⟨rows,hrows,hnext,-⟩ := hsound.replaceInPlace old wrote
    obtain ⟨-,hover⟩ := ActiveSegment.replaceRowInPlace_ok hrows
    rw [hnext]
    dsimp only
    rw [hover.revisions,map_set]
    obtain ⟨id,-,hdocument⟩ := Option.bind_eq_some_iff.mp document
    obtain ⟨found,hfound,hdocument⟩ := Option.bind_eq_some_iff.mp hdocument
    have hrevision : found = _ := congrArg DocumentVersion.revision (Option.some.inj hdocument)
    rw [hrevision] at hfound
    refine sum_set_lt (getElem?_map.trans (congrArg _ hfound)) ?_
    have hlt:=BitVec.lt_def.mp newer
    dsimp only
    omega

/-- The decisions so far have made the copy that the upserts so far make of the rows. -/
structure Following (analyze : String → List Token) (current : ActiveSegment)
    (segments : List (SealedSegment schema)) (progress : RevisionProgress) (c : Collection) :
    Prop where
  active : c.active = progress.working.getD current
  sound : ∃ texts,c.active.Sound analyze texts
  segments : c.segments = killed segments fun id => id ∈ progress.sealedTombstones
  untouched : progress.records = [] → progress.working = none ∧ progress.sealedTombstones = []
  changed : progress.records ≠ [] → progress.working ≠ none ∧ current.weight < c.active.weight
  upserts : ∀ record ∈ progress.records,record.2.1 = upsertV2

theorem Following.start (hsound : current.Sound analyze texts) :
    Following analyze current segments .start (Collection.start current segments) where
  active := rfl
  sound := ⟨texts,hsound⟩
  segments := by
    have hnone : (fun id : DocId => decide (id ∈ RevisionProgress.start.sealedTombstones)) =
        fun _ => false := rfl
    rw [hnone,killed_none]
    rfl
  untouched := fun _ => ⟨rfl,rfl⟩
  changed := fun h => absurd rfl h
  upserts := nofun

theorem Following.weight_le (h : Following analyze current segments progress c) :
    current.weight ≤ c.active.weight := by
  by_cases hrecords : progress.records = []
  · obtain ⟨hnone,-⟩ := h.untouched hrecords
    rw [h.active,hnone]
    exact Nat.le_refl _
  · exact (h.changed hrecords).2.le

theorem upsert_replayed (hnewest : ∀ revision ∈ c.copies d.version.docId,
    revision ≤ d.version.revision) (hmem : d.version.revision ∈ c.copies d.version.docId) :
    c.upsert quantizeBit4 analyze d = some c := by
  have hnone : ((c.copies d.version.docId).any fun revision => d.version.revision < revision) =
      false := by
    rw [any_eq_false]
    intro revision hrevision hlt
    have hle:=BitVec.le_def.mp (hnewest revision hrevision)
    have hlt:=BitVec.lt_def.mp (of_decide_eq_true hlt)
    omega
  rw [Collection.upsert,hnone,if_neg Bool.false_ne_true,if_pos hmem]

theorem upsert_written (hnewer : ∀ revision ∈ c.copies d.version.docId,
    revision < d.version.revision) (hwrites : Writes quantizeBit4 analyze c.active d next row) :
    c.upsert quantizeBit4 analyze d =
      some ⟨next,c.segments.map (SealedRows.kill fun id => id = d.version.docId)⟩ := by
  have hnone : ((c.copies d.version.docId).any fun revision => d.version.revision < revision) =
      false := by
    rw [any_eq_false]
    intro revision hrevision hlt
    have hle:=BitVec.lt_def.mp (hnewer revision hrevision)
    have hlt:=BitVec.lt_def.mp (of_decide_eq_true hlt)
    omega
  have hnot : d.version.revision ∉ c.copies d.version.docId := by
    intro hmem
    exact BitVec.lt_irrefl _ (hnewer _ hmem)
  rw [Collection.upsert,hnone,if_neg Bool.false_ne_true,if_neg hnot,hwrites.writeRow]

theorem Following.decide {remaining : List IngestDocument}
    (h : Following analyze current segments progress c) (hid : d.version.docId ∈ ids)
    (hview : sealedView = sealedViewOf segments absorbedThrough (sealedDocumentMatches segments ids))
    (hdecide : applyRevisionDecision quantizeBit4 analyze current sealedView d remaining progress =
      .ok progress') :
    ∃ c',c.upsert quantizeBit4 analyze d = some c' ∧
      Following analyze current segments progress' c' := by
  obtain ⟨texts,hsound⟩ := h.sound
  obtain ⟨hnone,hsome⟩ := resolve_copies h.segments hid hview
  have hworking : (progress.working.getD current).Sound analyze texts := h.active ▸ hsound
  rcases applyRevisionDecision_cases hworking hdecide with ⟨resolved,hresolved,hrevision,rfl⟩ |
    ⟨hnewer,htombstones,row,payload,next,hwrote⟩
  · rw [← h.active] at hresolved
    obtain ⟨hmem,hnewest⟩ := hsome resolved hresolved
    rw [hrevision] at hmem hnewest
    exact ⟨c,upsert_replayed hnewest hmem,h.active,h.sound,h.segments,h.untouched,h.changed,
      h.upserts⟩
  · have hwrites : Writes quantizeBit4 analyze c.active d next row := h.active ▸ hwrote.writes
    have hcopies : ∀ revision ∈ c.copies d.version.docId,revision < d.version.revision := by
      intro revision hrevision
      cases hresolved : resolveRevision c.active sealedView d.version.docId with
      | none =>
        rw [hnone hresolved] at hrevision
        cases hrevision
      | some resolved =>
        have hlt:=hnewer resolved (h.active ▸ hresolved)
        have hle:=(hsome resolved hresolved).2 revision hrevision
        exact BitVec.lt_def.mpr ((BitVec.le_def.mp hle).trans_lt (BitVec.lt_def.mp hlt))
    obtain ⟨texts',hsound',-⟩ := hwrites.written hsound
    refine ⟨_,upsert_written hcopies hwrites,?_⟩
    constructor
    · rw [hwrote.working]
      rfl
    · exact ⟨texts',hsound'⟩
    · dsimp only
      rw [h.segments,killed_kill]
      apply map_congr_left
      intro segment hsegment
      apply kill_congr
      intro version hversion
      rw [htombstones,Bool.eq_iff_iff,Bool.or_eq_true,decide_eq_true_eq,decide_eq_true_eq,
        decide_eq_true_eq,mem_tombstonesFor]
      apply or_congr_right
      constructor
      · intro heq
        refine ⟨heq,version,?_,heq⟩
        rw [hview,mem_sealedViewOf]
        exact ⟨heq ▸ hid,segment,hsegment,hversion⟩
      · exact fun heq => heq.1
    · rw [hwrote.records]
      intro hempty
      exact absurd hempty (append_ne_nil_of_right_ne_nil _ (cons_ne_nil _ _))
    · intro _
      rw [hwrote.working]
      exact ⟨Option.some_ne_none _,h.weight_le.trans_lt (hwrites.weight_lt hsound)⟩
    · rw [hwrote.records]
      intro record hrecord
      rcases mem_append.mp hrecord with hrecord | hrecord
      · exact h.upserts record hrecord
      · rw [mem_singleton.mp hrecord]

theorem applyRevisions_follow {documents : List IngestDocument}
    (h : Following analyze current segments progress c)
    (hids : ∀ d ∈ documents,d.version.docId ∈ ids)
    (hview : sealedView = sealedViewOf segments absorbedThrough (sealedDocumentMatches segments ids))
    (happly : applyRevisions quantizeBit4 analyze current sealedView documents progress =
      .ok progress') :
    ∃ c',documents.foldlM (Collection.upsert quantizeBit4 analyze) c = some c' ∧
      Following analyze current segments progress' c' := by
  induction documents generalizing progress c with
  | nil =>
    obtain rfl := Except.ok.inj happly
    exact ⟨c,rfl,h⟩
  | cons d documents ih =>
    obtain ⟨middle,hdecide,happly⟩ := bind_eq_ok happly
    obtain ⟨c',hupsert,hmiddle⟩ := h.decide (hids d mem_cons_self) hview hdecide
    obtain ⟨last,hfold,hlast⟩ := ih hmiddle
      (fun d hd => hids d (mem_cons_of_mem _ hd)) happly
    refine ⟨last,?_,hlast⟩
    rw [foldlM_cons,hupsert]
    exact hfold

end Upserts

section Deletes
variable {analyze : String → List Token} {texts : List (Option String)} {schema : Schema}
  {segments : List (SealedSegment schema)} {predicate : Predicate} {s : ActiveSegment}
  {c : Collection} {dead : DocId → Bool} {docId : DocId} {changed : List DocId}
  {mutation : NamespaceMutation}

theorem matches_delete (hsound : c.active.Sound analyze texts) {before : DocId → Bool}
    (hsegments : c.segments = killed segments before) :
    (c.delete dead).matches predicate docId = true ↔
      dead docId = false ∧ c.matches predicate docId = true := by
  rw [Collection.delete,Collection.matches,Collection.matches,Bool.or_eq_true,Bool.or_eq_true,
    matches_kill_active hsound,and_or_left]
  apply or_congr_right
  dsimp only
  rw [hsegments,killed_kill,any_eq_true,any_eq_true]
  unfold killed
  constructor
  · intro ⟨content,hcontent,hmatch⟩
    obtain ⟨segment,hsegment,rfl⟩ := mem_map.mp hcontent
    obtain ⟨hdead,hmatch⟩ := matches_kill.mp hmatch
    obtain ⟨hbefore,hdead⟩ := Bool.or_eq_false_iff.mp hdead
    exact ⟨hdead,_,mem_map_of_mem hsegment,matches_kill.mpr ⟨hbefore,hmatch⟩⟩
  · intro ⟨hdead,content,hcontent,hmatch⟩
    obtain ⟨segment,hsegment,rfl⟩ := mem_map.mp hcontent
    obtain ⟨hbefore,hmatch⟩ := matches_kill.mp hmatch
    exact ⟨_,mem_map_of_mem hsegment,
      matches_kill.mpr ⟨Bool.or_eq_false_iff.mpr ⟨hbefore,hdead⟩,hmatch⟩⟩

theorem matches_empty : ActiveSegment.empty.matches predicate docId = false := rfl

theorem predicateDeletes_iff {deletes more : List DocId} (hsound : c.active.Sound analyze texts)
    (hsegments : c.segments = killed segments fun id => id ∈ changed)
    (h : predicateDeletes schema segments c.active changed deletes predicate = .ok more) :
    docId ∈ more ↔ (c.delete fun id => id ∈ deletes).matches predicate docId = true := by
  obtain ⟨⟨⟩,hvalid,h⟩ := bind_eq_ok h
  obtain ⟨⟨provisional,rows⟩,hprovisional,h⟩ := bind_eq_ok h
  obtain ⟨sealedIds,hsealed,h⟩ := bind_eq_ok h
  obtain ⟨activeIds,hactive,rfl⟩ := bind_pure_eq_ok h
  have hvalid:=mapError_eq_ok hvalid
  obtain ⟨hsame,hsound'⟩ := tombstone_kills hsound (mapError_eq_ok hprovisional)
  have hnone : ∃ ids,ActiveSegment.Sound analyze .empty ids := ⟨_,ActiveSegment.Sound.empty analyze⟩
  obtain ⟨_,hempty⟩ := hnone
  rw [matches_delete hsound hsegments,Collection.matches,Bool.or_eq_true,mem_append,
    mem_filter,decide_eq_true_eq,liveDocumentIdsMatching_iff hempty hvalid hsealed,
    liveDocumentIdsMatching_iff hsound' hvalid hactive,hsame.matches,matches_kill_active hsound,
    matches_empty,hsegments,any_eq_true,decide_eq_false_iff_not]
  unfold killed
  constructor
  · intro hfound
    rcases hfound with ⟨⟨segment,hsegment,hmatch⟩ | hmatch,hchanged,hdeletes⟩ |
      ⟨segment,hsegment,-⟩ | ⟨hdeletes,hmatch⟩
    · exact ⟨hdeletes,.inr ⟨_,mem_map_of_mem hsegment,
        matches_kill.mpr ⟨decide_eq_false hchanged,hmatch⟩⟩⟩
    · cases hmatch
    · cases hsegment
    · exact ⟨hdeletes,.inl hmatch⟩
  · intro ⟨hdeletes,hfound⟩
    rcases hfound with hmatch | ⟨content,hcontent,hmatch⟩
    · exact .inr (.inr ⟨hdeletes,hmatch⟩)
    · obtain ⟨segment,hsegment,rfl⟩ := mem_map.mp hcontent
      obtain ⟨hchanged,hmatch⟩ := matches_kill.mp hmatch
      exact .inl ⟨.inl ⟨segment,hsegment,hmatch⟩,of_decide_eq_false hchanged,hdeletes⟩

def Collection.selected (predicate? : Option Predicate) (c : Collection) (docId : DocId) : Bool :=
  predicate?.any fun predicate => c.matches predicate docId

theorem stageDeletes_spec {deletes : List DocId} (hsound : c.active.Sound analyze texts)
    (hsegments : c.segments = killed segments fun id => id ∈ changed)
    (h : stageDeletes schema segments c.active changed mutation = .ok deletes) :
    deletes.Nodup ∧ ∀ id,id ∈ deletes ↔ id ∈ mutation.deletes ∨
      (c.delete fun id => id ∈ mutation.deletes).selected mutation.deleteWhere id = true := by
  unfold stageDeletes at h
  unfold Collection.selected
  cases hwhere : mutation.deleteWhere with
  | none =>
    rw [hwhere] at h
    obtain rfl := Except.ok.inj h
    refine ⟨sortIds_nodup _,?_⟩
    intro id
    rw [mem_sortIds,Option.any_none]
    exact (or_iff_left Bool.false_ne_true).symm
  | some predicate =>
    rw [hwhere] at h
    obtain ⟨more,hmore,rfl⟩ := bind_pure_eq_ok h
    refine ⟨sortIds_nodup _,?_⟩
    intro id
    rw [mem_sortIds,mem_append,predicateDeletes_iff hsound hsegments hmore,Option.any_some]

theorem deleteWhere_kills (predicate? : Option Predicate) (c : Collection) :
    SameRows (c.deleteWhere predicate?).active (c.active.kill (c.selected predicate?)) ∧
      (c.deleteWhere predicate?).segments =
        c.segments.map (SealedRows.kill (c.selected predicate?)) := by
  cases predicate? with
  | none =>
    refine ⟨(SameRows.kill_none c.active).symm,?_⟩
    have hkept : c.segments.map (SealedRows.kill fun _ => false) = c.segments.map id :=
      map_congr_left fun content _ => kill_none content
    exact (hkept.trans (map_id _)).symm
  | some predicate => exact ⟨.refl _,rfl⟩

theorem recordDeletes_ok {generation : U64} {deletes : List DocId} {active : ActiveState}
    {deleted : List ((U16 × Bytes) × List ℕ)} (hsound : s.Sound analyze texts)
    (h : recordDeletes s generation deletes = .ok (active,deleted)) :
    SameRows active.segment (s.kill fun id => id ∈ deletes) ∧
      (deletes = [] ∧ deleted = [] ∨ deletes ≠ [] ∧ ∃ payload rows,
        encodeDelete deletes = .ok payload ∧ deleted = [((deleteV1,payload),rows)]) := by
  unfold recordDeletes at h
  split_ifs at h with hempty
  · obtain ⟨rfl,rfl⟩ := Prod.mk.inj (Except.ok.inj h)
    refine ⟨?_,.inl ⟨hempty,rfl⟩⟩
    rw [hempty]
    exact (SameRows.kill_none s).symm
  · obtain ⟨⟨next,rows⟩,htombstone,h⟩ := bind_eq_ok h
    obtain ⟨payload,hpayload,h⟩ := bind_eq_ok h
    obtain ⟨generation,-,h⟩ := bind_eq_ok h
    obtain ⟨rfl,rfl⟩ := Prod.mk.inj (Except.ok.inj h)
    exact ⟨(tombstone_kills hsound (mapError_eq_ok htombstone)).1,
      .inr ⟨hempty,payload,rows,mapError_eq_ok hpayload,rfl⟩⟩

end Deletes

structure Unchanged (before after : Collection) : Prop where
  active : SameRows after.active before.active
  segments : after.segments = before.segments

section Stages
variable {quantizeBit4 : List U32 → Bytes → Except QuantError (Bytes × Bit4Factors)}
  {analyze : String → List Token} {texts : List (Option String)} {schema : Schema}
  {segments : List (SealedSegment schema)} {absorbedThrough : U64} {current : ActiveState}
  {mutation : NamespaceMutation} {stage : Stage schema}

/-- The stage of a mutation that turns the rows of `before`, by way of those of `prepared`, into those
of `after`: its last record deletes every id once, the requested ones and the selected ones. -/
structure Stages (mutation : NamespaceMutation) (before prepared after : Collection)
    (stage : Stage schema) : Prop where
  active : SameRows stage.active.segment after.active
  segments : stage.segments.map (fun result => result.1.content) = after.segments
  records : ∃ upserts deletes,(∀ record ∈ upserts,record.1 = upsertV2) ∧ deletes.Nodup ∧
    (∀ id,id ∈ deletes ↔ id ∈ mutation.deletes ∨
      prepared.selected mutation.deleteWhere id = true) ∧
    (deletes = [] ∧ stage.records = upserts ∨ deletes ≠ [] ∧ ∃ payload,
      encodeDelete deletes = .ok payload ∧ stage.records = upserts++[(deleteV1,payload)])
  noop : stage.records = [] ↔ mutation.deletes = [] ∧ Unchanged before after

theorem stagedSegment_ok {progress : RevisionProgress} {s : ActiveSegment}
    (hsound : current.segment.Sound analyze texts)
    (h : stagedSegment current.segment progress = .ok s) :
    s = progress.working.getD current.segment := by
  unfold stagedSegment at h
  cases hworking : progress.working with
  | some working =>
    rw [hworking] at h
    exact (Except.ok.inj h).symm
  | none =>
    rw [hworking] at h
    obtain ⟨⟨copy,rows⟩,hcopy,h⟩ := bind_eq_ok h
    have hcopy:=mapError_eq_ok hcopy
    rw [tombstone_nil hsound] at hcopy
    rw [← Except.ok.inj h,← (Prod.mk.inj (Except.ok.inj hcopy)).1]
    rfl

theorem not_unchanged_of_weight {before after : Collection} {s : ActiveSegment}
    (hrows : SameRows after.active s) (hlt : before.active.weight < s.weight) :
    ¬ Unchanged before after := by
  intro hsame
  have hrevisions : s.revisions = before.active.revisions := by
    have hfirst : after.active.revisions = s.revisions := by rw [hrows.rows]
    have hsecond : after.active.revisions = before.active.revisions := by rw [hsame.active.rows]
    rw [← hfirst,hsecond]
  unfold ActiveSegment.weight at hlt
  rw [hrevisions] at hlt
  exact lt_irrefl _ hlt

theorem not_unchanged_of_selected {c after : Collection} {dead : DocId → Bool}
    (hsound : c.active.Sound analyze texts) {before : DocId → Bool}
    (hsegments : c.segments = killed segments before)
    (hactive : SameRows after.active (c.active.kill dead))
    (hkilled : after.segments = c.segments.map (SealedRows.kill dead)) {predicate : Predicate}
    {docId : DocId} (hdead : dead docId = true) (hmatch : c.matches predicate docId = true) :
    ¬ Unchanged c after := by
  intro hsame
  have hnone : (c.delete dead).matches predicate docId = c.matches predicate docId := by
    rw [Collection.delete,Collection.matches,Collection.matches,← hkilled,hsame.segments,
      ← hactive.matches,hsame.active.matches]
  rw [hmatch] at hnone
  obtain ⟨halive,-⟩ := (matches_delete hsound hsegments).mp hnone
  rw [hdead] at halive
  cases halive

theorem after_kills {progress : RevisionProgress} {c : Collection} {deletes : List DocId}
    (hfollow : Following analyze current.segment segments progress c)
    (hdead : ∀ id,id ∈ deletes ↔ id ∈ mutation.deletes ∨
      (c.delete fun id => id ∈ mutation.deletes).selected mutation.deleteWhere id = true) :
    SameRows ((c.delete fun id => id ∈ mutation.deletes).deleteWhere mutation.deleteWhere).active
        (c.active.kill fun id => id ∈ deletes) ∧
      ((c.delete fun id => id ∈ mutation.deletes).deleteWhere mutation.deleteWhere).segments =
        c.segments.map (SealedRows.kill fun id => id ∈ deletes) := by
  obtain ⟨texts,hsound⟩ := hfollow.sound
  obtain ⟨hactive,hsegments⟩ := deleteWhere_kills mutation.deleteWhere
    (c.delete fun id => id ∈ mutation.deletes)
  have hall : (fun id => decide (id ∈ mutation.deletes) ||
      (c.delete fun id => id ∈ mutation.deletes).selected mutation.deleteWhere id) =
      fun id => decide (id ∈ deletes) := by
    funext id
    rw [Bool.eq_iff_iff,Bool.or_eq_true,decide_eq_true_eq,decide_eq_true_eq,hdead]
  rw [← hall]
  constructor
  · exact hactive.trans (kill_kill_active hsound.rows_le)
  · rw [hsegments,Collection.delete,map_map]
    apply map_congr_left
    intro content _
    exact kill_kill content _ _

theorem noop_iff {progress : RevisionProgress} {c after : Collection} {deletes : List DocId}
    (hfollow : Following analyze current.segment segments progress c)
    (hdead : ∀ id,id ∈ deletes ↔ id ∈ mutation.deletes ∨
      (c.delete fun id => id ∈ mutation.deletes).selected mutation.deleteWhere id = true)
    (hactive : SameRows after.active (c.active.kill fun id => id ∈ deletes))
    (hsegments : after.segments = c.segments.map (SealedRows.kill fun id => id ∈ deletes)) :
    progress.records = [] ∧ deletes = [] ↔
      mutation.deletes = [] ∧ Unchanged (Collection.start current.segment segments) after := by
  obtain ⟨texts,hsound⟩ := hfollow.sound
  have hstart : progress.records = [] → c = Collection.start current.segment segments := by
    intro hrecords
    obtain ⟨hworking,htombstones⟩ := hfollow.untouched hrecords
    have hrows : c.segments = segments.map SealedSegment.content := by
      rw [hfollow.segments,htombstones]
      exact killed_none
    have hcopy : c.active = current.segment := by
      rw [hfollow.active,hworking]
      rfl
    cases c
    exact congrArg₂ Collection.mk hcopy hrows
  constructor
  · intro ⟨hrecords,hdeletes⟩
    rw [← hstart hrecords]
    refine ⟨?_,?_,?_⟩
    · rw [eq_nil_iff_forall_not_mem]
      intro id hid
      have hmem:=(hdead id).mpr (.inl hid)
      rw [hdeletes] at hmem
      exact not_mem_nil hmem
    · rw [hdeletes] at hactive
      exact hactive.trans (SameRows.kill_none c.active)
    · rw [hsegments,hdeletes]
      have hkept : c.segments.map (SealedRows.kill fun _ => false) = c.segments.map id :=
        map_congr_left fun content _ => kill_none content
      exact hkept.trans (map_id _)
  · intro ⟨hnone,hsame⟩
    have hrecords : progress.records = [] := by
      by_contra hne
      exact not_unchanged_of_weight hactive (hfollow.changed hne).2 hsame
    refine ⟨hrecords,?_⟩
    rw [eq_nil_iff_forall_not_mem]
    intro id hid
    rw [← hstart hrecords] at hsame
    rcases (hdead id).mp hid with hmem | hselected
    · rw [hnone] at hmem
      exact not_mem_nil hmem
    · obtain ⟨predicate,-,hmatch⟩ := (Option.any_eq_true _ _).mp hselected
      obtain ⟨-,hmatch⟩ := (matches_delete hsound hfollow.segments).mp hmatch
      exact not_unchanged_of_selected hsound hfollow.segments hactive hsegments
        (decide_eq_true hid) hmatch hsame

theorem stageNamespace_sequential (hsound : current.segment.Sound analyze texts)
    (h : stageNamespace quantizeBit4 analyze schema mutation current segments absorbedThrough =
      .ok stage) :
    ∃ prepared,(Collection.start current.segment segments).prepare quantizeBit4 analyze mutation =
        some prepared ∧
      Stages mutation (Collection.start current.segment segments) prepared
        (prepared.deleteWhere mutation.deleteWhere) stage := by
  obtain ⟨-,-,h⟩ := bind_eq_ok h
  obtain ⟨-,-,h⟩ := bind_eq_ok h
  obtain ⟨progress,hprogress,h⟩ := bind_eq_ok h
  obtain ⟨segment,hsegment,h⟩ := bind_eq_ok h
  obtain ⟨generation,-,h⟩ := bind_eq_ok h
  obtain ⟨deletes,hdeletes,h⟩ := bind_eq_ok h
  obtain ⟨⟨active,deleted⟩,hdeleted,h⟩ := bind_eq_ok h
  obtain ⟨replaced,hreplaced,rfl⟩ := bind_pure_eq_ok h
  obtain ⟨c,hupserts,hfollow⟩ := applyRevisions_follow (.start hsound)
    (fun d hd => mem_map.mpr ⟨d,hd,rfl⟩) rfl (mapError_eq_ok hprogress)
  obtain ⟨texts',hsound'⟩ := hfollow.sound
  obtain rfl : segment = c.active := (stagedSegment_ok hsound hsegment).trans hfollow.active.symm
  obtain ⟨hnodup,hdead⟩ := stageDeletes_spec hsound' hfollow.segments hdeletes
  obtain ⟨hstaged,hrecord⟩ := recordDeletes_ok hsound' hdeleted
  obtain ⟨hactive,hsegments⟩ := after_kills hfollow hdead
  refine ⟨_,by rw [Collection.prepare,hupserts]; rfl,?_⟩
  constructor
  · exact hstaged.trans hactive.symm
  · dsimp only
    rw [prepareSealedTombstones_kills hreplaced,hsegments,hfollow.segments,killed_kill]
    apply map_congr_left
    intro segment _
    apply kill_congr
    intro version _
    rw [Bool.eq_iff_iff,Bool.or_eq_true,decide_eq_true_eq,decide_eq_true_eq,decide_eq_true_eq,
      mem_append]
  · refine ⟨progress.records.map fun record => record.2,deletes,?_,hnodup,hdead,?_⟩
    · intro record hrecord
      obtain ⟨entry,hentry,rfl⟩ := mem_map.mp hrecord
      exact hfollow.upserts entry hentry
    · rcases hrecord with ⟨hnone,hempty⟩ | ⟨hsome,payload,rows,hpayload,hone⟩
      · refine .inl ⟨hnone,?_⟩
        rw [hempty,map_nil,append_nil]
      · refine .inr ⟨hsome,payload,hpayload,?_⟩
        rw [hone,map_singleton]
  · rw [← noop_iff hfollow hdead hactive hsegments]
    dsimp only
    rw [append_eq_nil_iff,map_eq_nil_iff,map_eq_nil_iff]
    apply and_congr_right
    intro _
    rcases hrecord with ⟨hnone,hempty⟩ | ⟨hsome,payload,rows,-,hone⟩
    · exact ⟨fun _ => hnone,fun _ => hempty⟩
    · refine ⟨fun hempty => ?_,fun hempty => absurd hempty hsome⟩
      rw [hone] at hempty
      cases hempty

end Stages

def writtenTwice : NamespaceMutation where
  upserts := [.new ⟨1,1⟩ [0],.new ⟨2,1⟩ [0],.new ⟨1,2⟩ [0]]
  deletes := [2]
  deleteWhere := none

theorem stageNamespace_writtenTwice : ∃ (stage : Stage ⟨[]⟩) (prepared : Collection),
    stageNamespace quantizeZero (fun _ => []) ⟨[]⟩ writtenTwice ⟨1,.empty⟩ [] 0 = .ok stage ∧
      Stages writtenTwice ⟨.empty,[]⟩ prepared (prepared.deleteWhere none) stage := by
  have hok : (stageNamespace quantizeZero (fun _ => []) ⟨[]⟩ writtenTwice ⟨1,.empty⟩ [] 0).isOk =
      true := by decide +kernel
  cases hstage : stageNamespace quantizeZero (fun _ => []) ⟨[]⟩ writtenTwice ⟨1,.empty⟩ [] 0 with
  | error e =>
    rw [hstage] at hok
    cases hok
  | ok stage =>
    obtain ⟨prepared,-,hstages⟩ := stageNamespace_sequential (.empty _) hstage
    exact ⟨stage,prepared,rfl,hstages⟩

/-- A delete of an id that is not there leaves everything as it was, and is recorded. -/
def deletedUnknown : NamespaceMutation where
  upserts := []
  deletes := [9]
  deleteWhere := none

theorem deletedUnknown_recorded : ∃ (stage : Stage ⟨[]⟩) (prepared : Collection),
    stageNamespace quantizeZero (fun _ => []) ⟨[]⟩ deletedUnknown ⟨1,.empty⟩ [] 0 = .ok stage ∧
      Collection.prepare quantizeZero (fun _ => []) deletedUnknown ⟨.empty,[]⟩ = some prepared ∧
      Unchanged ⟨.empty,[]⟩ (prepared.deleteWhere deletedUnknown.deleteWhere) ∧
      stage.records ≠ [] ∧ stage.active.generation = 2 := by
  have hone : ((stageNamespace quantizeZero (fun _ => []) ⟨[]⟩ deletedUnknown ⟨1,.empty⟩ [] 0).map
      fun stage => (stage.records.length,stage.active.generation)).toOption = some (1,2) := by
    decide +kernel
  cases hstage : stageNamespace quantizeZero (fun _ => []) ⟨[]⟩ deletedUnknown ⟨1,.empty⟩ [] 0 with
  | error e =>
    rw [hstage] at hone
    cases hone
  | ok stage =>
    rw [hstage] at hone
    obtain ⟨hlength,hgeneration⟩ := Prod.mk.inj (Option.some.inj hone)
    refine ⟨stage,_,rfl,rfl,⟨.refl _,rfl⟩,?_,hgeneration⟩
    intro hempty
    rw [hempty] at hlength
    cases hlength

end Zeppelin.Ingest
