import Zeppelin.Bytes.LittleEndian

/-! Strings split as by `str::split_terminator`, `str::lines` and `str::split_once`. -/

namespace Zeppelin
open List

section Split
variable {α : Type} [DecidableEq α]

def splitTerminator (sep : α) : List α → List (List α)
  | [] => []
  | c::cs =>
    if c = sep then []::splitTerminator sep cs
    else match splitTerminator sep cs with
      | [] => [[c]]
      | l::ls => (c::l)::ls

def splitOnce (sep : α) : List α → Option (List α × List α)
  | [] => none
  | c::cs => if c = sep then some ([],cs) else (splitOnce sep cs).map fun p => (c::p.1,p.2)

variable {sep : α} {l : List α}

theorem splitTerminator_piece (h : sep ∉ l) (rest : List α) :
    splitTerminator sep (l++sep::rest) = l::splitTerminator sep rest := by
  induction l with
  | nil => simp [splitTerminator]
  | cons c l ih =>
    rw [mem_cons,not_or] at h
    rw [cons_append,splitTerminator,if_neg (Ne.symm h.1),ih h.2]

theorem splitTerminator_flatMap {ls : List (List α)} (h : ∀ l ∈ ls,sep ∉ l) :
    splitTerminator sep (ls.flatMap fun l => l++[sep]) = ls := by
  induction ls with
  | nil => rfl
  | cons l ls ih =>
    rw [flatMap_cons,append_assoc,singleton_append,
      splitTerminator_piece (h l (mem_cons_self ..)),
      ih fun l hl => h l (mem_cons_of_mem _ hl)]

theorem splitOnce_append (h : sep ∉ l) (rest : List α) :
    splitOnce sep (l++sep::rest) = some (l,rest) := by
  induction l with
  | nil => simp [splitOnce]
  | cons c l ih =>
    rw [mem_cons,not_or] at h
    rw [cons_append,splitOnce,if_neg (Ne.symm h.1),ih h.2]
    rfl

theorem splitOnce_some {a b : List α} (h : splitOnce sep l = some (a,b)) : l = a++sep::b := by
  induction l generalizing a with
  | nil => cases h
  | cons c l ih =>
    rw [splitOnce] at h
    split_ifs at h with hc
    · cases h
      rw [hc]
      rfl
    · obtain ⟨p,hp,he⟩ := Option.map_eq_some_iff.mp h
      cases he
      rw [ih hp]
      rfl

/-- A carriage return before a line end goes with it. -/
def textLines : List Char → List (List Char)
  | [] => []
  | '\r' :: '\n' :: cs => []::textLines cs
  | '\n' :: cs => []::textLines cs
  | c::cs =>
    match textLines cs with
    | [] => [[c]]
    | l::ls => (c::l)::ls

theorem textLines_piece {l : List Char} (hn : '\n' ∉ l) (hr : '\r' ∉ l) (rest : List Char) :
    textLines (l ++ '\n' :: rest) = l::textLines rest := by
  induction l with
  | nil => rw [nil_append,textLines]
  | cons c l ih =>
    rw [mem_cons,not_or] at hn hr
    rw [cons_append,textLines,ih hn.2 hr.2]
    · exact fun _ hc _ => hr.1 hc.symm
    · exact fun hc => hn.1 hc.symm

theorem textLines_flatMap {ls : List (List Char)} (h : ∀ l ∈ ls,'\n' ∉ l ∧ '\r' ∉ l) :
    textLines (ls.flatMap fun l => l++['\n']) = ls := by
  induction ls with
  | nil => rfl
  | cons l ls ih =>
    obtain ⟨hn,hr⟩ := h l (mem_cons_self ..)
    rw [flatMap_cons,append_assoc,singleton_append,textLines_piece hn hr,
      ih fun l hl => h l (mem_cons_of_mem _ hl)]

end Split

/-! A `String` is valid UTF-8, in Lean as in the source. -/

def utf8Bytes (s : String) : Bytes := s.toByteArray.data.toList.map UInt8.toBitVec

def byteArray (bs : Bytes) : ByteArray := ⟨(bs.map UInt8.ofBitVec).toArray⟩

def fromUtf8 (bs : Bytes) : Option String := String.fromUTF8? (byteArray bs)

@[simp] theorem utf8Bytes_length (s : String) : (utf8Bytes s).length = s.utf8ByteSize := by
  simp [utf8Bytes]

theorem byteArray_utf8Bytes (s : String) : byteArray (utf8Bytes s) = s.toByteArray := by
  have hmap : (utf8Bytes s).map UInt8.ofBitVec = s.toByteArray.data.toList := by
    simp [utf8Bytes,Function.comp_def]
  rw [byteArray,hmap]

theorem byteArray_toList (bs : Bytes) : (byteArray bs).data.toList.map UInt8.toBitVec = bs := by
  simp [byteArray,Function.comp_def]

@[simp] theorem fromUtf8_utf8Bytes (s : String) : fromUtf8 (utf8Bytes s) = some s := by
  rw [fromUtf8,byteArray_utf8Bytes,String.fromUTF8?,dif_pos s.isValidUTF8]
  rfl

theorem utf8Bytes_of_fromUtf8 {bs : Bytes} {s : String} (h : fromUtf8 bs = some s) :
    utf8Bytes s = bs := by
  rw [fromUtf8,String.fromUTF8?] at h
  split at h
  · have hs:=Option.some.inj h
    rw [← hs]
    exact byteArray_toList bs
  · cases h

end Zeppelin
