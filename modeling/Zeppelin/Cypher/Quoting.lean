import Zeppelin.Cypher.Tokens

namespace Zeppelin.Cypher
open List

def hexValue : ℕ → List Char → Option ℕ
  | value,[] => some value
  | value,c::digits => (toHexDigit c).bind fun digit => hexValue (value*16+digit) digits

inductive Spelling (quote : Char) : List Char → Char → Prop where
  | literal {c : Char} (free : c ≠ quote) (plain : c ≠ '\\') : Spelling quote [c] c
  | simple {letter c : Char} (escape : Lexer.simpleEscape letter = some c) :
      Spelling quote ['\\',letter] c
  | four {digits : List Char} {c : Char} (length : digits.length = 4)
      (value : hexValue 0 digits = some c.toNat) : Spelling quote ('\\' :: 'u' :: digits) c
  | pair {first second : List Char} {high low : ℕ} {c : Char} (length : first.length = 4)
      (length' : second.length = 4) (value : hexValue 0 first = some high)
      (value' : hexValue 0 second = some low) (lead : 0xd800 ≤ high ∧ high ≤ 0xdbff)
      (trail : 0xdc00 ≤ low ∧ low ≤ 0xdfff)
      (scalar : c.toNat = 0x10000+(high-0xd800)*1024+(low-0xdc00)) :
      Spelling quote ('\\' :: 'u' :: first ++ '\\' :: 'u' :: second) c
  | eight {digits : List Char} {c : Char} (length : digits.length = 8)
      (value : hexValue 0 digits = some c.toNat) : Spelling quote ('\\' :: 'U' :: digits) c

inductive Spelled (quote : Char) : List Char → List Char → Prop where
  | nil : Spelled quote [] []
  | cons {word body text : List Char} {c : Char} (first : Spelling quote word c)
      (next : Spelled quote body text) : Spelled quote (word++body) (c::text)

def doubleTicks (text : List Char) : List Char :=
  text.flatMap fun c => if c = '`' then ['`','`'] else [c]

theorem Spelling.word_ne_nil {quote c : Char} {word : List Char} (h : Spelling quote word c) :
    word ≠ [] := by
  cases h <;> simp

theorem Spelled.length_le {quote : Char} {body text : List Char} (h : Spelled quote body text) :
    text.length ≤ body.length := by
  induction h with
  | nil => exact Nat.le_refl _
  | cons first next ih =>
    have := length_pos_of_ne_nil first.word_ne_nil
    rw [length_cons,length_append]
    omega

theorem charFromU32_toNat (c : Char) : charFromU32 c.toNat = some c := by
  have hvalid : c.toNat.isValidChar := c.valid
  rw [charFromU32,dif_pos hvalid]
  rfl

theorem toNat_not_surrogate (c : Char) : c.toNat < 0xd800 ∨ 0xdfff < c.toNat := by
  rcases c.valid with h | h
  · exact .inl h
  · exact .inr h.1

namespace Lexer

variable {digits text : List Char} {c : Char}

theorem hex_value (start : ℕ) {value scalar : ℕ}
    (h : hexValue value digits = some scalar) (position : ℕ) (rest : List Char) :
    hex start digits.length value ⟨position,digits++rest⟩ =
      .ok (scalar,⟨position+byteLength digits,rest⟩) := by
  induction digits generalizing value position with
  | nil =>
    obtain rfl := Option.some.inj h
    rfl
  | cons c digits ih =>
    obtain ⟨digit,hdigit,h⟩ := Option.bind_eq_some_iff.mp h
    have hpeek : (⟨position,c::digits++rest⟩ : Lexer).peek.bind toHexDigit = some digit := hdigit
    have hadvance : (⟨position,c::digits++rest⟩ : Lexer).advance =
        ⟨position+c.utf8Size,digits++rest⟩ := rfl
    simp only [length_cons,hex,hpeek,hadvance]
    rw [ih h,byteLength_cons,Nat.add_assoc]

theorem scalarChar_toNat (start : ℕ) (c : Char) (lexer : Lexer) :
    scalarChar start c.toNat lexer = .ok (c,lexer) := by
  rw [scalarChar,charFromU32_toNat]

theorem unicode_scalar (start : ℕ)
    (value : hexValue 0 digits = some c.toNat) (position : ℕ) (rest : List Char) :
    unicode digits.length start ⟨position,digits++rest⟩ =
      .ok (c,⟨position+byteLength digits,rest⟩) := by
  rw [unicode,hex_value start value,ok_bind]
  dsimp only
  rw [if_neg,scalarChar_toNat]
  have := toNat_not_surrogate c
  omega

theorem unicode_pair (start : ℕ) {high low : ℕ} {first second : List Char}
    (length : first.length = 4) (length' : second.length = 4)
    (value : hexValue 0 first = some high) (value' : hexValue 0 second = some low)
    (lead : 0xd800 ≤ high ∧ high ≤ 0xdbff) (trail : 0xdc00 ≤ low ∧ low ≤ 0xdfff)
    (scalar : c.toNat = 0x10000+(high-0xd800)*1024+(low-0xdc00)) (position : ℕ)
    (rest : List Char) : unicode 4 start ⟨position,first ++ '\\' :: 'u' :: (second++rest)⟩ =
      .ok (c,⟨position+byteLength first+2+byteLength second,rest⟩) := by
  have hfirst:=hex_value start value position ('\\' :: 'u' :: (second++rest))
  rw [length] at hfirst
  have hsecond:=hex_value start value' (position+byteLength first+2) rest
  rw [length'] at hsecond
  have hlow : lowSurrogate start
      ⟨position+byteLength first,'\\' :: 'u' :: (second++rest)⟩ =
      .ok (low,⟨position+byteLength first+2+byteLength second,rest⟩) := by
    rw [lowSurrogate,if_pos (by simp [starts])]
    exact hsecond
  rw [unicode,hfirst,ok_bind]
  dsimp only
  rw [if_pos ⟨rfl,lead⟩,hlow,ok_bind]
  dsimp only
  have hscalar : 0x10000+(high-0xd800)*1024+low-0xdc00 = c.toNat := by omega
  rw [if_pos trail,hscalar,scalarChar_toNat]

theorem quotedChar_spelling {quote : Char} {word : List Char} {start : ℕ}
    (hquote : quote = '\'' ∨ quote = '"') (h : Spelling quote word c) (position : ℕ)
    (rest : List Char) : quotedChar quote start ⟨position,word++rest⟩ =
      .ok (some c,⟨position+byteLength word,rest⟩) := by
  have htick : quote ≠ '`' := by rcases hquote with rfl | rfl <;> decide
  have hback : ('\\' : Char) ≠ quote := by rcases hquote with rfl | rfl <;> decide
  -- every spelling but the literal is an escape
  have hescape : ∀ {tail : List Char} {after : Lexer},word = '\\' :: tail →
      escape ⟨position+1,tail++rest⟩ = .ok (c,after) →
      quotedChar quote start ⟨position,word++rest⟩ = .ok (some c,after) := by
    rintro tail after rfl hafter
    have hpeek : (⟨position,'\\' :: tail++rest⟩ : Lexer).peek = some '\\' := rfl
    have hadvance : (⟨position,'\\' :: tail++rest⟩ : Lexer).advance =
        ⟨position+1,tail++rest⟩ := rfl
    rw [quotedChar,hpeek]
    dsimp only
    rw [if_neg hback,if_pos ⟨rfl,htick⟩,hadvance,hafter]
    rfl
  cases h with
  | literal free plain =>
    have hpeek : (⟨position,[c]++rest⟩ : Lexer).peek = some c := rfl
    rw [quotedChar,hpeek]
    dsimp only
    rw [if_neg free,if_neg fun h => plain h.1]
    rfl
  | @simple letter c escape =>
    apply hescape rfl
    have hpeek : (⟨position+1,[letter]++rest⟩ : Lexer).peek = some letter := rfl
    unfold Lexer.escape
    dsimp only
    split
    · rename_i hu
      obtain rfl := Option.some.inj (hpeek.symm.trans hu)
      cases escape
    · rename_i hu
      obtain rfl := Option.some.inj (hpeek.symm.trans hu)
      cases escape
    · rw [hpeek,Option.bind_some,escape]
      dsimp only
      rw [byteLength_cons,byteLength_cons,← Nat.add_assoc]
      rfl
  | @four digits c length value =>
    apply hescape rfl
    have hread:=unicode_scalar (position+1-1) value (position+2) rest
    rw [length] at hread
    rw [byteLength_cons,byteLength_cons,← Nat.add_assoc,← Nat.add_assoc]
    exact hread
  | @pair first second high low c length length' value value' lead trail scalar =>
    apply hescape rfl
    have hread:=unicode_pair (position+1-1) length length' value value' lead trail
      scalar (position+2) rest
    have hlength : position+byteLength ('\\' :: 'u' :: first ++ '\\' :: 'u' :: second) =
        position+2+byteLength first+2+byteLength second := by
      have hback : ('\\').utf8Size = 1 := rfl
      have hu : ('u').utf8Size = 1 := rfl
      simp only [byteLength_append,byteLength_cons,hback,hu]
      omega
    have htail : ('u' :: first ++ '\\' :: 'u' :: second)++rest =
        'u' :: (first ++ '\\' :: 'u' :: (second++rest)) := by
      simp only [cons_append,append_assoc]
    rw [hlength]
    change escape ⟨position+1,('u' :: first ++ '\\' :: 'u' :: second)++rest⟩ = _
    rw [htail]
    exact hread
  | @eight digits c length value =>
    apply hescape rfl
    have hread:=unicode_scalar (position+1-1) value (position+2) rest
    rw [length] at hread
    rw [byteLength_cons,byteLength_cons,← Nat.add_assoc,← Nat.add_assoc]
    exact hread

theorem quotedFrom_spelled (start fuel : ℕ) {quote : Char} {body : List Char}
    (hquote : quote = '\'' ∨ quote = '"') (h : Spelled quote body text) (position : ℕ)
    (before rest : List Char) (hfuel : text.length < fuel) :
    quotedFrom quote start fuel ⟨position,body++quote::rest⟩ before =
      .ok (before++text,⟨position+byteLength body+quote.utf8Size,rest⟩) := by
  have htick : quote ≠ '`' := by rcases hquote with rfl | rfl <;> decide
  induction h generalizing position before fuel with
  | nil =>
    cases fuel with
    | zero => omega
    | succ fuel =>
      have hend : quotedChar quote start ⟨position,quote::rest⟩ =
          .ok (none,⟨position+quote.utf8Size,rest⟩) := by
        have hpeek : (⟨position,quote::rest⟩ : Lexer).peek = some quote := rfl
        rw [quotedChar,hpeek]
        dsimp only
        rw [if_pos rfl,if_neg fun h => htick h.1]
        rfl
      rw [nil_append,quotedFrom,hend,ok_bind,append_nil]
      rfl
  | @cons word body text c first next ih =>
    cases fuel with
    | zero => simp at hfuel
    | succ fuel =>
      rw [length_cons] at hfuel
      rw [append_assoc,quotedFrom,quotedChar_spelling hquote first,ok_bind]
      dsimp only
      rw [if_neg fun h => htick h.1,ih _ _ _ (by omega),byteLength_append,Nat.add_assoc position,
        append_assoc,singleton_append]

theorem quotedChar_tick (start : ℕ) (c : Char) (position : ℕ) (rest : List Char) :
    quotedChar '`' start ⟨position,(if c = '`' then ['`','`'] else [c])++rest⟩ =
      .ok (some c,⟨position+byteLength (if c = '`' then ['`','`'] else [c]),rest⟩) := by
  split_ifs with htick
  · rw [htick]
    rfl
  · have hpeek : (⟨position,[c]++rest⟩ : Lexer).peek = some c := rfl
    rw [quotedChar,hpeek]
    dsimp only
    rw [if_neg htick,if_neg fun h => h.2 rfl]
    rfl

theorem quotedFrom_ticks (start fuel : ℕ) (hnul : '\x00' ∉ text)
    (position : ℕ) (before rest : List Char) (hrest : rest.head? ≠ some '`')
    (hfuel : text.length < fuel) :
    quotedFrom '`' start fuel ⟨position,doubleTicks text ++ '`' :: rest⟩ before =
      .ok (before++text,⟨position+byteLength (doubleTicks text)+1,rest⟩) := by
  induction text generalizing position before fuel with
  | nil =>
    cases fuel with
    | zero => omega
    | succ fuel =>
      have hend : quotedChar '`' start ⟨position,'`' :: rest⟩ = .ok (none,⟨position+1,rest⟩) := by
        have hpeek : (⟨position,'`' :: rest⟩ : Lexer).peek = some '`' := rfl
        rw [quotedChar,hpeek]
        dsimp only
        rw [if_pos rfl,if_neg fun h => hrest h.2]
        rfl
      change quotedFrom '`' start (fuel+1) ⟨position,'`' :: rest⟩ before = _
      rw [quotedFrom,hend,ok_bind,append_nil]
      rfl
  | cons c text ih =>
    cases fuel with
    | zero => simp at hfuel
    | succ fuel =>
      rw [length_cons] at hfuel
      have hne : ¬ ('`' = '`' ∧ c = '\x00') := fun h => hnul (h.2 ▸ mem_cons_self)
      have htext : doubleTicks (c::text) =
          (if c = '`' then ['`','`'] else [c])++doubleTicks text := flatMap_cons
      rw [htext,append_assoc,quotedFrom,quotedChar_tick,ok_bind]
      dsimp only
      rw [if_neg hne,ih fuel (fun h => hnul (mem_cons_of_mem _ h)) _ _ (by omega),
        byteLength_append,Nat.add_assoc position,append_assoc,singleton_append]

theorem quotedFrom_nul (start fuel : ℕ) (hnul : '\x00' ∈ text)
    (position : ℕ) (before rest : List Char) (hfuel : text.length < fuel) :
    ∃ span,quotedFrom '`' start fuel ⟨position,doubleTicks text++rest⟩ before =
      .error (.parse ⟨.invalidLiteral,span,"NUL in name"⟩) := by
  induction text generalizing position before fuel with
  | nil => cases hnul
  | cons c text ih =>
    cases fuel with
    | zero => simp at hfuel
    | succ fuel =>
      rw [length_cons] at hfuel
      have htext : doubleTicks (c::text) =
          (if c = '`' then ['`','`'] else [c])++doubleTicks text := flatMap_cons
      rw [htext,append_assoc,quotedFrom,quotedChar_tick,ok_bind]
      dsimp only
      by_cases hc : c = '\x00'
      · rw [if_pos ⟨rfl,hc⟩]
        exact ⟨_,rfl⟩
      · rw [if_neg fun h => hc h.2]
        have hmem : '\x00' ∈ text := by
          rcases mem_cons.mp hnul with h | h
          · exact absurd h.symm hc
          · exact h
        exact ih fuel hmem _ _ (by omega)

end Lexer

section

variable {quote : Char} (hquote : quote = '`' ∨ quote = '\'' ∨ quote = '"') (body : List Char)
include hquote

theorem skip_quote (position : ℕ) : (⟨position,quote::body⟩ : Lexer).skip = .ok none := by
  rcases hquote with rfl | rfl | rfl
  · rfl
  · rfl
  · rfl

theorem scan_quote (fuel position : ℕ) :
    (⟨position,quote::body⟩ : Lexer).scan fuel quote =
      (Lexer.quoted fuel quote ⟨position,quote::body⟩ >>= fun read =>
        .ok (Lexer.quotedKind quote,some read.1,read.2)) := by
  rcases hquote with rfl | rfl | rfl
  · rfl
  · rfl
  · rfl

theorem tokenize_quoted {limit stop : ℕ} {text : List Char} (hlimit : 0 < limit)
    (hread : Lexer.quoted (body.length+2) quote ⟨0,quote::body⟩ = .ok (text,⟨stop,[]⟩)) :
    tokenize limit (quote::body) = .ok [⟨Lexer.quotedKind quote,⟨0,stop⟩,some text⟩] := by
  have hscan:=scan_quote hquote body (body.length+2) 0
  rw [hread,ok_bind] at hscan
  have hpeek : (⟨0,quote::body⟩ : Lexer).peek = some quote := rfl
  have hlength : (quote::body).length+1 = body.length+2 := rfl
  have hroom : ¬ ([] : List Token).length = limit := by
    intro h
    rw [length_nil] at h
    omega
  rw [tokenize,tokenizeWith,hlength,tokenizeFrom,hpeek]
  dsimp only
  rw [skip_quote hquote,ok_bind]
  dsimp only
  rw [hscan,ok_bind]
  dsimp only
  rw [if_neg hroom]
  rfl

theorem tokenize_refused (limit : ℕ) {e : Failure}
    (hread : Lexer.quoted (body.length+2) quote ⟨0,quote::body⟩ = .error e) :
    tokenize limit (quote::body) = .error e := by
  have hscan:=scan_quote hquote body (body.length+2) 0
  rw [hread,error_bind] at hscan
  have hpeek : (⟨0,quote::body⟩ : Lexer).peek = some quote := rfl
  have hlength : (quote::body).length+1 = body.length+2 := rfl
  rw [tokenize,tokenizeWith,hlength,tokenizeFrom,hpeek]
  dsimp only
  rw [skip_quote hquote,ok_bind]
  dsimp only
  rw [hscan,error_bind]

end

variable {limit : ℕ} {text : List Char}

theorem tokenize_string {quote : Char} {body : List Char} (hlimit : 0 < limit)
    (hquote : quote = '\'' ∨ quote = '"') (h : Spelled quote body text) :
    tokenize limit (quote::(body++[quote])) =
      .ok [⟨.string,⟨0,byteLength (quote::(body++[quote]))⟩,some text⟩] := by
  have hkind : Lexer.quotedKind quote = .string := by rcases hquote with rfl | rfl <;> rfl
  rw [← hkind]
  apply tokenize_quoted (.inr hquote) _ hlimit
  have hlength:=h.length_le
  have hread:=Lexer.quotedFrom_spelled 0 ((body++[quote]).length+2) hquote h
    quote.utf8Size [] [] (by rw [length_append]; omega)
  have hstop : byteLength (quote::(body++[quote])) =
      quote.utf8Size+byteLength body+quote.utf8Size := by
    simp only [byteLength_cons,byteLength_append,byteLength_nil]
    omega
  rw [hstop]
  have hstart : (⟨0,quote::(body++[quote])⟩ : Lexer).advance =
      ⟨quote.utf8Size,body++[quote]⟩ := by
    simp only [Lexer.advance,Nat.zero_add]
  rw [Lexer.quoted,hstart]
  exact hread

theorem length_doubleTicks (text : List Char) : text.length ≤ (doubleTicks text).length := by
  induction text with
  | nil => exact Nat.le_refl _
  | cons c text ih =>
    have htext : doubleTicks (c::text) =
        (if c = '`' then ['`','`'] else [c])++doubleTicks text := flatMap_cons
    rw [htext,length_append,length_cons]
    split_ifs
    · simp only [length_cons,length_nil]
      omega
    · simp only [length_cons,length_nil]
      omega

theorem tokenize_name (hlimit : 0 < limit) (hnul : '\x00' ∉ text) :
    tokenize limit ('`' :: (doubleTicks text++['`'])) =
      .ok [⟨.quotedName,⟨0,byteLength ('`' :: (doubleTicks text++['`']))⟩,some text⟩] := by
  have hkind : Lexer.quotedKind '`' = .quotedName := rfl
  rw [← hkind]
  apply tokenize_quoted (.inl rfl) _ hlimit
  have hlength:=length_doubleTicks text
  have hread:=Lexer.quotedFrom_ticks 0 ((doubleTicks text++['`']).length+2)
    hnul 1 [] [] nofun (by rw [length_append]; omega)
  have hstop : byteLength ('`' :: (doubleTicks text++['`'])) =
      1+byteLength (doubleTicks text)+1 := by
    rw [byteLength_cons,byteLength_append,← Nat.add_assoc]
    rfl
  rw [hstop]
  exact hread

theorem tokenize_nul (limit : ℕ) (hnul : '\x00' ∈ text) :
    ∃ span,tokenize limit ('`' :: (doubleTicks text++['`'])) =
      .error (.parse ⟨.invalidLiteral,span,"NUL in name"⟩) := by
  have hlength:=length_doubleTicks text
  obtain ⟨span,hread⟩ := Lexer.quotedFrom_nul 0 ((doubleTicks text++['`']).length+2)
    hnul 1 [] ['`'] (by rw [length_append]; omega)
  exact ⟨span,tokenize_refused (.inl rfl) _ limit hread⟩

/-- Lexing is faithful but for names with a NUL, which it refuses. -/
theorem lexing_faithful :
    (∀ limit source tokens,tokenize limit source = .ok tokens →
      (∀ t ∈ tokens,t.span.start < t.span.stop ∧ OnBoundary source t.span.start ∧
        OnBoundary source t.span.stop) ∧
      (tokens.Pairwise fun a b => a.span.stop ≤ b.span.start) ∧ Lexed 0 source tokens) ∧
    (∀ limit quote body text,0 < limit → quote = '\'' ∨ quote = '"' → Spelled quote body text →
      tokenize limit (quote::(body++[quote])) =
        .ok [⟨.string,⟨0,byteLength (quote::(body++[quote]))⟩,some text⟩]) ∧
    (∀ limit text,0 < limit → '\x00' ∉ text →
      tokenize limit ('`' :: (doubleTicks text++['`'])) =
        .ok [⟨.quotedName,⟨0,byteLength ('`' :: (doubleTicks text++['`']))⟩,some text⟩]) ∧
    (∀ limit text,'\x00' ∈ text → ∃ span,
      tokenize limit ('`' :: (doubleTicks text++['`'])) =
        .error (.parse ⟨.invalidLiteral,span,"NUL in name"⟩)) ∧
    ∀ fuel limit source,source.length < fuel → Ends (tokenizeWith fuel limit source) := by
  refine ⟨?_,?_,?_,?_,?_⟩
  · intro limit source tokens h
    obtain ⟨found,rfl,hlexed⟩ := tokenizeFrom_lexed h
    refine ⟨?_,hlexed.ordered,hlexed⟩
    intro t ht
    obtain ⟨hstart,hstop⟩ := hlexed.boundaries [] rfl t ht
    exact ⟨hlexed.span_lt t ht,hstart,hstop⟩
  · intro limit quote body text hlimit hquote h
    exact tokenize_string hlimit hquote h
  · intro limit text hlimit hnul
    exact tokenize_name hlimit hnul
  · intro limit text hnul
    exact tokenize_nul limit hnul
  · intro fuel limit source hfuel
    exact tokenizeWith_ends limit source hfuel

theorem name_with_nul_refused :
    ¬ ∃ token,tokenize 8192 ('`' :: (doubleTicks ['\x00']++['`'])) = .ok [token] ∧
      token.decoded = some ['\x00'] := by
  rintro ⟨token,h,_⟩
  have herror : tokenize 8192 ('`' :: (doubleTicks ['\x00']++['`'])) =
      .error (.parse ⟨.invalidLiteral,⟨0,2⟩,"NUL in name"⟩) := by decide
  rw [herror] at h
  cases h

end Zeppelin.Cypher
