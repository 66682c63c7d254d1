import Zeppelin.Namespace.RootRecord

namespace Zeppelin.Namespace
open Ingest List

def RouteValid (route : String × String) : Prop :=
  nameValid route.1 ∧ ∃ transaction,transactionValid transaction ∧
    route.2.toList = transaction.toList ++ '/' :: route.1.toList

def RouteTableValid (routes : Routes) : Prop := ∀ route ∈ routes.entries,RouteValid route

theorem ensure_ok {p : Prop} [Decidable p] {path message : String}
    (h : ensure p path message = .ok ()) : p := by
  unfold ensure at h
  split at h
  · assumption
  · cases h

section Checksum
variable (xxh3 : Bytes → U64)

theorem withChecksum_length (front : Bytes) : (withChecksum xxh3 front).length = front.length+8 := by
  simp [withChecksum]

theorem checkedFront_withChecksum (path short bad : String) {magics : List Bytes} {front : Bytes}
    (hmagic : magics.any fun m => m.isPrefixOf front)
    (hsize : (withChecksum xxh3 front).length ≤ maxRecord) :
    checkedFront xxh3 path short bad magics (withChecksum xxh3 front) = .ok front := by
  have hlen:=withChecksum_length xxh3 front
  have hfront : (withChecksum xxh3 front).take ((withChecksum xxh3 front).length-8) = front := by
    rw [hlen,Nat.add_sub_cancel,withChecksum,take_left]
  have hend : (withChecksum xxh3 front).drop ((withChecksum xxh3 front).length-8) =
      toLe 8 (xxh3 front) := by
    rw [hlen,Nat.add_sub_cancel,withChecksum,drop_left]
  rw [checkedFront,if_neg (by omega)]
  simp only [hfront,hend]
  rw [if_neg]
  rintro (h | h | h)
  · omega
  · exact h hmagic
  · exact h rfl

variable {path : String} {c : Char} {route : String × String} {entries : List (String × String)}

variable {xxh3} in
theorem checkedFront_ok {short bad : String} {magics : List Bytes} {bytes front : Bytes}
    (h : checkedFront xxh3 path short bad magics bytes = .ok front) :
    bytes = withChecksum xxh3 front ∧ bytes.length ≤ maxRecord ∧
      magics.any fun m => m.isPrefixOf front := by
  unfold checkedFront at h
  obtain ⟨-,h⟩ := of_ite_error h
  simp only at h
  obtain ⟨hbad,h⟩ := of_ite_error h
  rw [not_or,not_or,not_not,not_not] at hbad
  obtain ⟨hsize,hmagic,hsum⟩ := hbad
  obtain rfl := Except.ok.inj h
  refine ⟨?_,by omega,hmagic⟩
  rw [withChecksum,← hsum,take_append_drop]

theorem takeBytes_append (path truncated : String) {xs : Bytes} {n : ℕ} (h : xs.length = n)
    (rest : Bytes) : takeBytes path truncated n (xs++rest) = .ok (xs,rest) := by
  subst h
  rw [takeBytes,if_pos (by simp),take_left,drop_left]

theorem magic_isPrefixOf (rest : Bytes) : magic.isPrefixOf (magic++rest) := by
  rw [ isPrefixOf_iff_prefix]
  exact prefix_append ..

theorem body_envelope (path : String) {text : Bytes}
    (hsize : (envelope xxh3 text).length ≤ maxRecord) :
    body xxh3 path (envelope xxh3 text) = .ok text := by
  rw [body,envelope,checkedFront_withChecksum xxh3 _ _ _ (by simp [magic_isPrefixOf]) hsize,
    ok_bind,drop_left]
  rfl

theorem not_mem_of_nameValid {name : String} (h : nameValid name)
    (hc : (c.isAlphanum || c = '.' || c = '_' || c = '-') = false) : c ∉ name.toList := by
  intro hmem
  simp only [nameValid,Bool.and_eq_true,all_eq_true] at h
  have hval:=h.2 c hmem
  rw [hc] at hval
  cases hval

theorem not_mem_of_transactionValid {transaction : String} (h : transactionValid transaction)
    (hc : (c.isAlphanum || c = '-' || c = '.') = false) : c ∉ transaction.toList := by
  intro hmem
  simp only [transactionValid,Bool.and_eq_true,all_eq_true] at h
  have hval:=h.1.2 c hmem
  rw [hc] at hval
  cases hval

theorem RouteValid.not_mem (h : RouteValid route) :
    '\t' ∉ route.1.toList ∧ '\n' ∉ route.1.toList ∧ '\n' ∉ route.2.toList := by
  obtain ⟨hname,transaction,htransaction,hdestination⟩ := h
  refine ⟨not_mem_of_nameValid hname (by decide),not_mem_of_nameValid hname (by decide),?_⟩
  rw [hdestination,mem_append,mem_cons]
  rintro (h | h | h)
  · exact not_mem_of_transactionValid htransaction (by decide) h
  · cases h
  · exact not_mem_of_nameValid hname (by decide) h

def routeLine (route : String × String) : String :=
  String.ofList (route.1.toList ++ '\t' :: route.2.toList)

theorem lines_routesText (h : ∀ e ∈ entries,RouteValid e) :
    lines (routesText entries) = entries.map routeLine := by
  have hlines : entries.flatMap (fun e => e.1.toList ++ '\t' :: e.2.toList++['\n']) =
      (entries.map fun e => e.1.toList ++ '\t' :: e.2.toList).flatMap fun l => l++['\n'] := by
    rw [flatMap_map]
  rw [lines,routesText,String.toList_ofList,hlines,splitTerminator_flatMap,map_map]
  · rfl
  · intro l hl
    obtain ⟨e,he,rfl⟩ := mem_map.mp hl
    obtain ⟨-,hname,hdestination⟩ := (h e he).not_mem
    simp [hname,hdestination]

theorem decodeRoute_routeLine (path : String) {routes : Routes}
    (h : RouteValid route) (hlast : ∀ e ∈ routes.entries,e.1 < route.1) :
    ∃ next,decodeRoute path routes (routeLine route) = .ok next ∧
      next.entries = routes.entries++[route] := by
  obtain ⟨htab,-,-⟩ := h.not_mem
  obtain ⟨hname,transaction,htransaction,hdestination⟩ := h
  have hline : splitText '\t' (routeLine route) = some route := by
    rw [splitText,routeLine,String.toList_ofList,splitOnce_append htab]
    simp
  have hsplit : splitText '/' route.2 = some (transaction,route.1) := by
    rw [splitText,hdestination,
      splitOnce_append (not_mem_of_transactionValid htransaction (by decide))]
    simp
  obtain ⟨hnone,hentries⟩ := SortedMap.insert_last route.2 hlast
  refine ⟨_,?_,hentries⟩
  simp [decodeRoute,hline,hsplit,hname,htransaction,hnone]

theorem decodeRoute_fold (path : String) {routes : Routes} (hvalid : ∀ e ∈ entries,RouteValid e)
    (hsorted : (routes.entries++entries).Pairwise fun a b => a.1 < b.1) :
    ∃ next,(entries.map routeLine).foldlM (decodeRoute path) routes = .ok next ∧
      next.entries = routes.entries++entries := by
  induction entries generalizing routes with
  | nil => exact ⟨routes,rfl,(append_nil _).symm⟩
  | cons e es ih =>
    have hlast : ∀ a ∈ routes.entries,a.1 < e.1 := fun a ha =>
      (pairwise_append.mp hsorted).2.2 a ha e (mem_cons_self ..)
    obtain ⟨next,hstep,hnext⟩ := decodeRoute_routeLine path (hvalid e (mem_cons_self ..)) hlast
    rw [append_cons,← hnext] at hsorted
    obtain ⟨final,hfold,hfinal⟩ := ih (fun a ha => hvalid a (mem_cons_of_mem _ ha)) hsorted
    refine ⟨final,?_,by rw [hfinal,hnext,← append_cons]⟩
    rw [map_cons,foldlM_cons,hstep,ok_bind,hfold]

theorem decodeRoutes_encode (path : String) {routes : Routes} (hvalid : RouteTableValid routes)
    (hsize : (encode xxh3 routes).length ≤ maxRecord) :
    decodeRoutes xxh3 path (encode xxh3 routes) = .ok routes := by
  have hsorted : ((.empty : Routes).entries++routes.entries).Pairwise fun a b => a.1 < b.1 :=
    routes.sorted
  obtain ⟨next,hfold,hentries⟩ := decodeRoute_fold path hvalid hsorted
  obtain rfl : next = routes := SortedMap.ext hentries
  rw [decodeRoutes,encode,body_envelope xxh3 path hsize,ok_bind]
  simp only [fromUtf8_utf8Bytes,lines_routesText hvalid,hfold,ok_bind]
  exact if_neg (not_not.mpr rfl)

theorem decodeRoute_ok {line : String} {routes next : Routes} (hvalid : RouteTableValid routes)
    (h : decodeRoute path routes line = .ok next) : RouteTableValid next := by
  unfold decodeRoute at h
  split at h
  · cases h
  · rename_i name destination _
    split at h
    · cases h
    · rename_i transaction child hsplit
      obtain ⟨hok,h⟩ := of_ite_error h
      rw [not_or,not_or,not_or,not_not,not_not,not_not] at hok
      obtain ⟨hname,rfl,htransaction,-⟩ := hok
      obtain rfl := Except.ok.inj h
      obtain ⟨⟨front,back⟩,hparts,hpair⟩ := Option.map_eq_some_iff.mp hsplit
      cases hpair
      intro route hroute
      rcases SortedMap.mem_insert hroute with rfl | hroute
      · refine ⟨hname,_,htransaction,?_⟩
        simpa using splitOnce_some hparts
      · exact hvalid route hroute

theorem decodeRoute_fold_ok {ls : List String} {routes final : Routes}
    (hvalid : RouteTableValid routes) (h : ls.foldlM (decodeRoute path) routes = .ok final) :
    RouteTableValid final := by
  induction ls generalizing routes with
  | nil =>
    obtain rfl := Except.ok.inj h
    exact hvalid
  | cons l ls ih =>
    rw [foldlM_cons] at h
    obtain ⟨next,hstep,h⟩ := bind_eq_ok h
    exact ih (decodeRoute_ok hvalid hstep) h

variable {bytes : Bytes} {d : StagedDescriptor}

variable {xxh3} in
theorem decodeRoutes_ok {path : String} {routes : Routes}
    (h : decodeRoutes xxh3 path bytes = .ok routes) :
    encode xxh3 routes = bytes ∧ RouteTableValid routes ∧ bytes.length ≤ maxRecord := by
  obtain ⟨raw,hraw,h⟩ := bind_eq_ok h
  obtain ⟨front,hfront,-⟩ := bind_eq_ok hraw
  split at h
  · cases h
  · obtain ⟨result,hfold,h⟩ := bind_eq_ok h
    obtain ⟨hcanonical,h⟩ := of_ite_error h
    obtain rfl := Except.ok.inj h
    refine ⟨not_not.mp hcanonical,decodeRoute_fold_ok ?_ hfold,(checkedFront_ok hfront).2.1⟩
    simp [RouteTableValid,SortedMap.empty]

theorem isPrefixOf_append {a b : Bytes} (h : a.length = b.length) (rest : Bytes) :
    a.isPrefixOf (b++rest) = decide (a = b) := by
  rw [Bool.eq_iff_iff, isPrefixOf_iff_prefix,decide_eq_true_eq]
  constructor
  · intro hp
    exact (prefix_of_prefix_length_le hp (prefix_append b rest) h.le).eq_of_length h
  · rintro rfl
    exact prefix_append ..

theorem stagedMagic_append (logicalDelete : Bool) (rest : Bytes) :
    logicalStagedMagic.isPrefixOf (magicOf logicalDelete++rest) = logicalDelete ∧
      [stagedMagic,logicalStagedMagic].any (fun m => m.isPrefixOf (magicOf logicalDelete++rest)) ∧
      (magicOf logicalDelete++rest).drop 8 = rest := by
  have hlen : stagedMagic.length = 8 ∧ logicalStagedMagic.length = 8 := by decide
  have hne : logicalStagedMagic ≠ stagedMagic := by decide
  cases logicalDelete with
  | false =>
    refine ⟨?_,?_,drop_left' hlen.1⟩
    · exact (isPrefixOf_append (by decide) rest).trans (decide_eq_false hne)
    · simp [magicOf]
  | true =>
    refine ⟨?_,?_,drop_left' hlen.2⟩
    · exact (isPrefixOf_append rfl rest).trans (decide_eq_true rfl)
    · simp [magicOf]

theorem decodeText_encodeText (path : String) {text : String}
    (h : encodeText text = .ok bytes) (rest : Bytes) :
    decodeText path (bytes++rest) = .ok (text,rest) := by
  unfold encodeText at h
  split at h
  · rename_i hlt
    obtain rfl := Except.ok.inj h
    have hlen : (utf8Bytes text).length = (BitVec.ofNat 16 text.utf8ByteSize).toNat := by
      rw [utf8Bytes_length,BitVec.toNat_ofNat,Nat.mod_eq_of_lt hlt]
    rw [decodeText,append_assoc,takeBytes_append path _ (toLe_length 2 _),ok_bind]
    simp only [ofLe_toLe_16]
    rw [takeBytes_append path _ hlen,ok_bind]
    simp only [fromUtf8_utf8Bytes]
  · cases h

theorem encodeBinding_ok {binding : TransactionBinding} (h : encodeBinding binding = .ok bytes) :
    bytes.length = 64 ∧ TransactionBinding.decode bytes = .ok binding := by
  unfold encodeBinding at h
  split at h
  · rename_i evidence hencode
    obtain rfl := Except.ok.inj h
    obtain ⟨members,hmembers,rfl⟩ := bind_pure_eq_ok hencode
    exact ⟨binding.bytes_length,TransactionBinding.decode_bytes hmembers⟩
  · cases h

theorem decodeSelections_encode (path : String) {logicalDelete : Bool}
    {entries : List (String × StagedSelection)} {transaction : Option U128} {identities : List U128}
    (h : encodeSelections logicalDelete transaction identities entries = .ok bytes)
    {result : SortedMap String StagedSelection}
    (hsorted : (result.entries++entries).Pairwise fun a b => a.1 < b.1) (rest : Bytes) :
    ∃ final,decodeSelections path logicalDelete entries.length result (bytes++rest) =
        .ok (final,rest) ∧ final.entries = result.entries++entries := by
  induction entries generalizing transaction identities bytes result with
  | nil =>
    obtain rfl := Except.ok.inj h
    exact ⟨result,rfl,(append_nil _).symm⟩
  | cons e es ih =>
    obtain ⟨name,selection⟩ := e
    rw [encodeSelections] at h
    obtain ⟨hok,h⟩ := of_ite_error h
    rw [not_or,not_not] at hok
    obtain ⟨nameBytes,hname,h⟩ := bind_eq_ok h
    obtain ⟨manifestBytes,hmanifest,h⟩ := bind_eq_ok h
    obtain ⟨evidence,hbinding,h⟩ := bind_eq_ok h
    obtain ⟨tail,htail,rfl⟩ := bind_pure_eq_ok h
    obtain ⟨hlen,hdecode⟩ := encodeBinding_ok hbinding
    have hselection : StagedSelection.mk logicalDelete selection.manifest selection.binding =
        selection := by
      rw [← hok.1]
    have hlast : ∀ a ∈ result.entries,a.1 < name := fun a ha =>
      (pairwise_append.mp hsorted).2.2 a ha (name,selection) (mem_cons_self ..)
    obtain ⟨hnone,hnext⟩ := SortedMap.insert_last selection hlast
    rw [append_cons,← hnext] at hsorted
    obtain ⟨final,hfinal,hentries⟩ := ih htail hsorted
    refine ⟨final,?_,by rw [hentries,hnext,← append_cons]⟩
    simp only [append_assoc,length_cons,decodeSelections,
      decodeText_encodeText path hname,decodeText_encodeText path hmanifest,ok_bind,
      takeBytes_append path _ hlen,hdecode,hselection,hnone]
    exact hfinal

theorem encodeStaged_ok (h : encodeStaged xxh3 d = .ok bytes) :
    ∃ participants,encodeSelections d.logicalDelete none [] d.selections.entries = .ok participants ∧
      d.selections.entries.length < 2^32 ∧ (encode xxh3 d.routes).length < 2^32 ∧
      bytes = withChecksum xxh3 (magicOf d.logicalDelete++
        toLe 4 (BitVec.ofNat 32 d.selections.entries.length)++participants++
        toLe 4 (BitVec.ofNat 32 (encode xxh3 d.routes).length)++encode xxh3 d.routes) ∧
      bytes.length ≤ maxRecord := by
  unfold encodeStaged at h
  obtain ⟨hcount,h⟩ := of_ite_error h
  obtain ⟨-,h⟩ := of_ite_error h
  obtain ⟨participants,hparticipants,h⟩ := bind_eq_ok h
  obtain ⟨⟨⟩,hroutes,h⟩ := bind_eq_ok h
  obtain ⟨⟨⟩,hsize,rfl⟩ := bind_pure_eq_ok h
  exact ⟨participants,hparticipants,not_not.mp hcount,ensure_ok hroutes,rfl,ensure_ok hsize⟩

theorem decodeStaged_encodeStaged (path : String)
    (h : encodeStaged xxh3 d = .ok bytes) (hvalid : RouteTableValid d.routes) :
    decodeStaged xxh3 path bytes = .ok d := by
  have hagain:=h
  obtain ⟨participants,hparticipants,hcount,hroutes,rfl,hsize⟩ := encodeStaged_ok xxh3 h
  have htable : (encode xxh3 d.routes).length ≤ maxRecord := by
    rw [withChecksum_length] at hsize
    simp only [length_append] at hsize
    omega
  have hsorted : ((SortedMap.empty : SortedMap String StagedSelection).entries++
      d.selections.entries).Pairwise fun a b => a.1 < b.1 := d.selections.sorted
  obtain ⟨final,hfinal,hentries⟩ := decodeSelections_encode path hparticipants hsorted
    (toLe 4 (BitVec.ofNat 32 (encode xxh3 d.routes).length)++encode xxh3 d.routes)
  obtain rfl : final = d.selections := SortedMap.ext hentries
  have hnat (n : ℕ) (hn : n < 2^32) : (BitVec.ofNat 32 n).toNat = n := by
    rw [BitVec.toNat_ofNat,Nat.mod_eq_of_lt hn]
  have htake : takeBytes path truncatedStaged (encode xxh3 d.routes).length (encode xxh3 d.routes) =
      .ok (encode xxh3 d.routes,[]) := by
    rw [takeBytes,if_pos le_rfl,take_length,drop_length]
  obtain ⟨hkind,hmagic,hdrop⟩ := stagedMagic_append d.logicalDelete
    (toLe 4 (BitVec.ofNat 32 d.selections.entries.length)++(participants++
      (toLe 4 (BitVec.ofNat 32 (encode xxh3 d.routes).length)++encode xxh3 d.routes)))
  simp only [append_assoc] at hagain hsize ⊢
  simp only [decodeStaged,checkedFront_withChecksum xxh3 _ _ _ hmagic hsize,ok_bind,hkind,hdrop,
    takeBytes_append path _ (toLe_length 4 _),ofLe_toLe_32,hnat _ hcount,hfinal,hnat _ hroutes,
    htake,decodeRoutes_encode xxh3 path hvalid htable,hagain,ensure,if_true]
  rfl

variable {xxh3} in
theorem decodeStaged_ok {path : String} {bytes : Bytes} {d : StagedDescriptor}
    (h : decodeStaged xxh3 path bytes = .ok d) :
    encodeStaged xxh3 d = .ok bytes ∧ RouteTableValid d.routes := by
  obtain ⟨front,-,h⟩ := bind_eq_ok h
  obtain ⟨⟨count,remaining⟩,-,h⟩ := bind_eq_ok h
  obtain ⟨⟨selections,remaining⟩,-,h⟩ := bind_eq_ok h
  obtain ⟨⟨length,remaining⟩,-,h⟩ := bind_eq_ok h
  obtain ⟨⟨table,remaining⟩,-,h⟩ := bind_eq_ok h
  obtain ⟨routes,hroutes,h⟩ := bind_eq_ok h
  obtain ⟨⟨⟩,-,h⟩ := bind_eq_ok h
  obtain ⟨again,hagain,h⟩ := bind_eq_ok h
  obtain ⟨⟨⟩,hcanonical,rfl⟩ := bind_pure_eq_ok h
  obtain rfl := ensure_ok hcanonical
  exact ⟨hagain,(decodeRoutes_ok hroutes).2.1⟩

def RootDescriptor.routes : RootDescriptor → Routes
  | .legacy routes => routes
  | .staged d => d.routes

def RootDescriptor.logicalDelete : RootDescriptor → Bool
  | .legacy _ => false
  | .staged d => d.logicalDelete

/-- A descriptor without identity: the body that a portable root wraps. -/
def encodeDescriptor : RootDescriptor → Except NamespaceError Bytes
  | .legacy routes => .ok (encode xxh3 routes)
  | .staged d => encodeStaged xxh3 d

theorem withChecksum_isPrefixOf (m rest : Bytes) : m.isPrefixOf (withChecksum xxh3 (m++rest)) := by
  rw [ isPrefixOf_iff_prefix,withChecksum,append_assoc]
  exact prefix_append ..

theorem encode_not_staged (routes : Routes) :
    ¬ (stagedMagic.isPrefixOf (encode xxh3 routes) ∨
      logicalStagedMagic.isPrefixOf (encode xxh3 routes)) := by
  have hstaged : stagedMagic.isPrefixOf (encode xxh3 routes) = false := by
    rw [encode,envelope,withChecksum,append_assoc,isPrefixOf_append (by decide)]
    decide
  have hlogical : logicalStagedMagic.isPrefixOf (encode xxh3 routes) = false := by
    rw [encode,envelope,withChecksum,append_assoc,isPrefixOf_append (by decide)]
    decide
  simp [hstaged,hlogical]

variable {xxh3} in
theorem encodeStaged_magic {d : StagedDescriptor} {bytes : Bytes}
    (h : encodeStaged xxh3 d = .ok bytes) : (magicOf d.logicalDelete).isPrefixOf bytes := by
  obtain ⟨participants,-,-,-,rfl,-⟩ := encodeStaged_ok xxh3 h
  simp only [append_assoc]
  exact withChecksum_isPrefixOf ..

theorem decodeDescriptor_encode (path : String) {descriptor : RootDescriptor} {bytes : Bytes}
    (h : encodeDescriptor xxh3 descriptor = .ok bytes) (hvalid : RouteTableValid descriptor.routes)
    (hsize : (encode xxh3 descriptor.routes).length ≤ maxRecord) :
    decodeDescriptor xxh3 path bytes = .ok descriptor := by
  cases descriptor with
  | legacy routes =>
    obtain rfl := Except.ok.inj h
    rw [RootDescriptor.routes] at hvalid hsize
    rw [decodeDescriptor,if_neg (encode_not_staged xxh3 routes),
      decodeRoutes_encode xxh3 path hvalid hsize,ok_map]
  | staged d =>
    have hmagic : stagedMagic.isPrefixOf bytes ∨ logicalStagedMagic.isPrefixOf bytes := by
      have hm:=encodeStaged_magic h
      unfold magicOf at hm
      split at hm
      · exact .inr hm
      · exact .inl hm
    rw [decodeDescriptor,if_pos hmagic,decodeStaged_encodeStaged xxh3 path h hvalid,ok_map]

variable {bytes : Bytes} {descriptor : RootDescriptor}

variable {xxh3} in
theorem decodeDescriptor_ok {path : String}
    (h : decodeDescriptor xxh3 path bytes = .ok descriptor) :
    encodeDescriptor xxh3 descriptor = .ok bytes ∧ RouteTableValid descriptor.routes := by
  unfold decodeDescriptor at h
  split at h
  · obtain ⟨d,hd,rfl⟩ := map_eq_ok h
    exact decodeStaged_ok hd
  · obtain ⟨routes,hroutes,rfl⟩ := map_eq_ok h
    obtain ⟨hbytes,hvalid,-⟩ := decodeRoutes_ok hroutes
    exact ⟨congrArg Except.ok hbytes,hvalid⟩

theorem encodeDescriptor_table (h : encodeDescriptor xxh3 descriptor = .ok bytes) :
    (encode xxh3 descriptor.routes).length ≤ bytes.length := by
  cases descriptor with
  | legacy routes =>
    obtain rfl := Except.ok.inj h
    rfl
  | staged d =>
    obtain ⟨participants,-,-,-,rfl,-⟩ := encodeStaged_ok xxh3 h
    rw [withChecksum_length]
    simp only [length_append,RootDescriptor.routes]
    omega

section Identity
variable (xxh3Wide : Bytes → U128)

variable {xxh3 xxh3Wide} in
theorem encodeNested_ok {id : NamespaceRootId} {descriptor : RootDescriptor} {nested : Bytes}
    (h : encodeNested xxh3 xxh3Wide id descriptor = .ok nested) :
    encodeDescriptor xxh3 descriptor = .ok nested := by
  cases descriptor with
  | legacy routes =>
    obtain ⟨decoded,-,h⟩ := bind_eq_ok h
    exact h
  | staged d =>
    obtain ⟨⟨⟩,-,h⟩ := bind_eq_ok h
    exact h

variable {id : NamespaceRootId} {descriptor : RootDescriptor} {bytes : Bytes}

variable {xxh3 xxh3Wide} in
theorem encodeRoot_ok (h : encodeRoot xxh3 xxh3Wide id descriptor = .ok bytes) :
    ∃ nested,encodeDescriptor xxh3 descriptor = .ok nested ∧ nested.length < 2^32 ∧
      bytes = withChecksum xxh3 (rootMagic++toLe 16 id.value++
        toLe 4 (BitVec.ofNat 32 nested.length)++nested) ∧ bytes.length ≤ maxRecord := by
  obtain ⟨nested,hnested,h⟩ := bind_eq_ok h
  obtain ⟨⟨⟩,hlen,h⟩ := bind_eq_ok h
  obtain ⟨⟨⟩,hsize,rfl⟩ := bind_pure_eq_ok h
  exact ⟨nested,encodeNested_ok hnested,ensure_ok hlen,rfl,ensure_ok hsize⟩

theorem decodeRoot_encodeRoot (path : String)
    (h : encodeRoot xxh3 xxh3Wide id descriptor = .ok bytes)
    (hvalid : RouteTableValid descriptor.routes) :
    decodeRoot xxh3 xxh3Wide path bytes = .ok (id,descriptor) := by
  have hagain:=h
  obtain ⟨nested,hnested,hlen,rfl,hsize⟩ := encodeRoot_ok h
  have htable : (encode xxh3 descriptor.routes).length ≤ maxRecord := by
    have hle:=encodeDescriptor_table xxh3 hnested
    rw [withChecksum_length] at hsize
    simp only [length_append] at hsize
    omega
  have hnat : (BitVec.ofNat 32 nested.length).toNat = nested.length := by
    rw [BitVec.toNat_ofNat,Nat.mod_eq_of_lt hlen]
  have htake : takeBytes path truncatedPortable nested.length nested = .ok (nested,[]) := by
    rw [takeBytes,if_pos le_rfl,take_length,drop_length]
  have hid : NamespaceRootId.new path id.value = .ok id := dif_neg id.nonzero
  simp only [append_assoc] at hagain hsize ⊢
  have hmagic : [rootMagic].any fun m => m.isPrefixOf (rootMagic++(toLe 16 id.value++
      (toLe 4 (BitVec.ofNat 32 nested.length)++nested))) := by
    simp
  simp only [decodeRoot,checkedFront_withChecksum xxh3 _ _ _ hmagic hsize,ok_bind,drop_left,
    takeBytes_append path _ (toLe_length 16 _),takeBytes_append path _ (toLe_length 4 _),
    ofLe_toLe_128,ofLe_toLe_32,hid,hnat,htake,
    decodeDescriptor_encode xxh3 path hnested hvalid htable,hagain,ensure,if_true]
  rfl

variable {bytes : Bytes} {descriptor : RootDescriptor}

variable {xxh3 xxh3Wide} in
theorem decodeRoot_ok {path : String} {id : NamespaceRootId}
    (h : decodeRoot xxh3 xxh3Wide path bytes = .ok (id,descriptor)) :
    encodeRoot xxh3 xxh3Wide id descriptor = .ok bytes ∧ RouteTableValid descriptor.routes := by
  obtain ⟨front,-,h⟩ := bind_eq_ok h
  obtain ⟨⟨idBytes,remaining⟩,-,h⟩ := bind_eq_ok h
  obtain ⟨rootId,-,h⟩ := bind_eq_ok h
  obtain ⟨⟨length,remaining⟩,-,h⟩ := bind_eq_ok h
  obtain ⟨⟨nested,remaining⟩,-,h⟩ := bind_eq_ok h
  obtain ⟨decoded,hdecoded,h⟩ := bind_eq_ok h
  obtain ⟨⟨⟩,-,h⟩ := bind_eq_ok h
  obtain ⟨again,hagain,h⟩ := bind_eq_ok h
  obtain ⟨⟨⟩,hcanonical,h⟩ := bind_eq_ok h
  obtain ⟨rfl,rfl⟩ := Prod.mk.inj (Except.ok.inj h)
  obtain rfl := ensure_ok hcanonical
  exact ⟨hagain,(decodeDescriptor_ok hdecoded).2⟩

structure Readable (id : Option NamespaceRootId) (descriptor : RootDescriptor) : Prop where
  routes : RouteTableValid descriptor.routes
  size : (utf8Bytes (routesText descriptor.routes.entries)).length+16 ≤ maxRecord
  kind : id = none → descriptor.logicalDelete = false

theorem encode_length (routes : Routes) :
    (encode xxh3 routes).length = (utf8Bytes (routesText routes.entries)).length+16 := by
  have hmagic : magic.length = 8 := by decide
  rw [encode,envelope,withChecksum_length,length_append,hmagic]
  omega

theorem encodeDescriptor_rootMagic (h : encodeDescriptor xxh3 descriptor = .ok bytes) :
    rootMagic.isPrefixOf bytes = descriptor.logicalDelete := by
  cases descriptor with
  | legacy routes =>
    obtain rfl := Except.ok.inj h
    have hnot:=encode_not_staged xxh3 routes
    rw [not_or] at hnot
    exact Bool.eq_false_of_not_eq_true hnot.2
  | staged d =>
    obtain ⟨participants,-,-,-,rfl,-⟩ := encodeStaged_ok xxh3 h
    have hkind:=stagedMagic_append d.logicalDelete
      (toLe 4 (BitVec.ofNat 32 d.selections.entries.length)++(participants++
        (toLe 4 (BitVec.ofNat 32 (encode xxh3 d.routes).length)++(encode xxh3 d.routes++
          toLe 8 (xxh3 (magicOf d.logicalDelete++
            (toLe 4 (BitVec.ofNat 32 d.selections.entries.length)++(participants++
              (toLe 4 (BitVec.ofNat 32 (encode xxh3 d.routes).length)++
                encode xxh3 d.routes)))))))))
    simp only [withChecksum,append_assoc]
    exact hkind.1

variable {bytes : Bytes} {id : Option NamespaceRootId} {descriptor : RootDescriptor}

variable {xxh3 xxh3Wide} in
theorem rootRecord_ok {path : String}
    (h : rootRecord xxh3 xxh3Wide path (some bytes) = .ok (id,descriptor)) :
    encodeRootRecord xxh3 xxh3Wide id descriptor = .ok bytes ∧ Readable id descriptor := by
  rw [rootRecord] at h
  obtain ⟨hlen,h⟩ := of_ite_error h
  split at h
  · obtain ⟨⟨rootId,decoded⟩,hroot,hpair⟩ := map_eq_ok h
    simp only [Prod.mk.injEq] at hpair
    obtain ⟨rfl,rfl⟩ := hpair
    obtain ⟨hencode,hvalid⟩ := decodeRoot_ok hroot
    obtain ⟨nested,hnested,-,hbytes,hsize⟩ := encodeRoot_ok hencode
    have htable:=encodeDescriptor_table xxh3 hnested
    rw [hbytes,withChecksum_length] at hsize
    simp only [length_append] at hsize
    rw [encode_length] at htable
    exact ⟨hencode,hvalid,by omega,fun h => nomatch h⟩
  · rename_i hmagic
    obtain ⟨decoded,hdecoded,hpair⟩ := map_eq_ok h
    cases hpair
    obtain ⟨hencode,hvalid⟩ := decodeDescriptor_ok hdecoded
    have htable:=encodeDescriptor_table xxh3 hencode
    rw [encode_length] at htable
    rw [encodeDescriptor_rootMagic xxh3 hencode,Bool.not_eq_true] at hmagic
    refine ⟨?_,hvalid,by omega,fun _ => hmagic⟩
    cases descriptor <;> exact hencode

theorem rootRecord_of_readable (path : String)
    (h : encodeRootRecord xxh3 xxh3Wide id descriptor = .ok bytes) (hread : Readable id descriptor) :
    rootRecord xxh3 xxh3Wide path (some bytes) = .ok (id,descriptor) := by
  obtain ⟨hvalid,hsize,hkind⟩ := hread
  rw [← encode_length xxh3] at hsize
  cases id with
  | some id =>
    have hroot : encodeRoot xxh3 xxh3Wide id descriptor = .ok bytes := h
    obtain ⟨nested,-,-,hbytes,hmax⟩ := encodeRoot_ok hroot
    have hmagic : rootMagic.isPrefixOf bytes := by
      rw [hbytes]
      simp only [append_assoc]
      exact withChecksum_isPrefixOf ..
    rw [rootRecord,if_neg (by omega),if_pos hmagic,
      decodeRoot_encodeRoot xxh3 xxh3Wide path hroot hvalid,ok_map]
  | none =>
    have hplain : encodeDescriptor xxh3 descriptor = .ok bytes := by
      cases descriptor <;> exact h
    have hmax : bytes.length ≤ maxRecord := by
      cases descriptor with
      | legacy routes =>
        obtain rfl := Except.ok.inj hplain
        exact hsize
      | staged d =>
        obtain ⟨participants,-,-,-,-,hmax⟩ := encodeStaged_ok xxh3 hplain
        exact hmax
    have hmagic : ¬ rootMagic.isPrefixOf bytes = true := by
      rw [encodeDescriptor_rootMagic xxh3 hplain,hkind rfl]
      decide
    rw [rootRecord,if_neg (by omega),if_neg hmagic,
      decodeDescriptor_encode xxh3 path hplain hvalid hsize,ok_map]

/-- A written root record is read back exactly when it is `Readable`, and every
record that is read is the one that would be written. -/
theorem rootRecord_roundTrip (path : String) {id : Option NamespaceRootId}
    {descriptor : RootDescriptor} {bytes : Bytes}
    (h : encodeRootRecord xxh3 xxh3Wide id descriptor = .ok bytes) :
    (rootRecord xxh3 xxh3Wide path (some bytes) = .ok (id,descriptor) ↔ Readable id descriptor) ∧
      ∀ accepted found root,rootRecord xxh3 xxh3Wide path (some accepted) = .ok (found,root) →
        encodeRootRecord xxh3 xxh3Wide found root = .ok accepted :=
  ⟨⟨fun hread => (rootRecord_ok hread).2,rootRecord_of_readable xxh3 xxh3Wide path h⟩,
    fun _ _ _ hread => (rootRecord_ok hread).1⟩

end Identity

end Checksum

def oneStage (logicalDelete : Bool) : StagedDescriptor where
  selections := ⟨[("a",⟨logicalDelete,".ze-manifest-1",⟨1,2,3,3,4,5⟩⟩)],
    pairwise_singleton ..⟩
  routes := .empty

/-- `encodeRootRecord` of `oneStage`, whose checksums are all zero. -/
def oneStageBytes (logicalDelete : Bool) : Bytes :=
  magicOf logicalDelete++toLe 4 (1 : U32)++toLe 2 (1 : U16)++utf8Bytes "a"++
    toLe 2 (14 : U16)++utf8Bytes ".ze-manifest-1"++
    (TransactionBinding.mk 1 2 3 3 4 5).bytes++toLe 4 (16 : U32)++magic++toLe 8 (0 : U64)++
    toLe 8 (0 : U64)

theorem rootRecord_physical_stage :
    rootRecord (fun _ => 0) (fun _ => 2) record (some (oneStageBytes false)) =
      .ok (none,.staged (oneStage false)) := by
  have hencode : encodeRootRecord (fun _ => 0) (fun _ => 2) none (.staged (oneStage false)) =
      .ok (oneStageBytes false) := by
    decide +kernel
  have hread : Readable none (.staged (oneStage false)) :=
    ⟨by simp [RouteTableValid,oneStage,RootDescriptor.routes,SortedMap.empty],by decide,
      fun _ => rfl⟩
  exact ((rootRecord_roundTrip _ _ record hencode).1).mpr hread

/-- The logical delete of a root without identity is taken for a portable root:
its participant entry is read as an identity and a length. -/
theorem logical_stage_unreadable :
    encodeRootRecord (fun _ => 0) (fun _ => 2) none (.staged (oneStage true)) =
        .ok (oneStageBytes true) ∧
      rootRecord (fun _ => 0) (fun _ => 2) record (some (oneStageBytes true)) =
        .error (.invalid record "truncated portable record") := by
  decide +kernel

end Zeppelin.Namespace
