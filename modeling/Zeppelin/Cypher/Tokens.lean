import Zeppelin.Cypher.Lexer

namespace Zeppelin.Cypher
open List

/-- A character or a comment that no token takes, and what follows it. A line comment ends with
its line or with the text. -/
inductive Skipped : List Char → List Char → Prop where
  | space {c : Char} {rest : List Char} (white : isAsciiWhitespace c = true) : Skipped [c] rest
  | line {body rest : List Char} (one : '\n' ∉ body) (ended : ∀ c,rest.head? = some c → c = '\n') :
      Skipped ('/' :: '/' :: body) rest
  | block {body rest : List Char} (open' : ¬ ['*','/'] <:+: body) :
      Skipped ('/' :: '*' :: (body++['*','/'])) rest

/-- The text that begins at a position is the words of these tokens and skipped words. -/
inductive Lexed : ℕ → List Char → List Token → Prop where
  | done (position : ℕ) : Lexed position [] []
  | skip {position : ℕ} {word rest : List Char} {tokens : List Token} (gap : Skipped word rest)
      (next : Lexed (position+byteLength word) rest tokens) : Lexed position (word++rest) tokens
  | token {position : ℕ} {word rest : List Char} {token : Token} {tokens : List Token}
      (nonempty : word ≠ []) (start : token.span.start = position)
      (stop : token.span.stop = position+byteLength word)
      (next : Lexed token.span.stop rest tokens) : Lexed position (word++rest) (token::tokens)

def OnBoundary (source : List Char) (position : ℕ) : Prop :=
  ∃ before after,source = before++after ∧ position = byteLength before

namespace Lexed

variable {position : ℕ} {rest : List Char} {tokens : List Token}

theorem start_le (h : Lexed position rest tokens) :
    ∀ t ∈ tokens,position ≤ t.span.start := by
  induction h with
  | done => simp
  | skip gap next ih =>
    intro t ht
    have := ih t ht
    omega
  | token nonempty start stop next ih =>
    intro t ht
    rcases mem_cons.mp ht with rfl | ht
    · exact Nat.le_of_eq start.symm
    · have := ih t ht
      omega

theorem span_lt (h : Lexed position rest tokens) : ∀ t ∈ tokens,t.span.start < t.span.stop := by
  induction h with
  | done => simp
  | skip gap next ih => exact ih
  | token nonempty start stop next ih =>
    intro t ht
    rcases mem_cons.mp ht with rfl | ht
    · have := byteLength_pos nonempty
      omega
    · exact ih t ht

theorem ordered (h : Lexed position rest tokens) :
    tokens.Pairwise fun a b => a.span.stop ≤ b.span.start := by
  induction h with
  | done => exact List.Pairwise.nil
  | skip gap next ih => exact ih
  | token nonempty start stop next ih => exact List.Pairwise.cons next.start_le ih

theorem boundaries (h : Lexed position rest tokens) (before : List Char)
    (hbefore : position = byteLength before) :
    ∀ t ∈ tokens,
      OnBoundary (before++rest) t.span.start ∧ OnBoundary (before++rest) t.span.stop := by
  induction h generalizing before with
  | done => simp
  | @skip position word rest tokens gap next ih =>
    have hnext:=ih (before++word) (by rw [byteLength_append,hbefore])
    rw [append_assoc] at hnext
    exact hnext
  | @token position word rest token tokens nonempty start stop next ih =>
    have hstop : token.span.stop = byteLength (before++word) := by
      rw [byteLength_append,stop,hbefore]
    have hnext:=ih (before++word) hstop
    rw [append_assoc] at hnext
    intro t ht
    rcases mem_cons.mp ht with rfl | ht
    · exact ⟨⟨before,word++rest,rfl,start.trans hbefore⟩,
        ⟨before++word,rest,(append_assoc ..).symm,hstop⟩⟩
    · exact hnext t ht

end Lexed

namespace Lexer

variable {lexer done : Lexer}

theorem blockComment_moves {start position : ℕ} {rest : List Char}
    (h : blockComment start position rest = .ok done) :
    ∃ body,Moves ⟨position,rest⟩ done (body++['*','/']) ∧ ¬ ['*','/'] <:+: body := by
  induction rest generalizing position with
  | nil => cases h
  | cons c rest ih =>
    simp only [blockComment] at h
    split_ifs at h with hstarts
    · obtain rfl := Except.ok.inj h
      exact ⟨[],starts_two hstarts,by decide⟩
    · obtain ⟨body,move,hopen⟩ := ih h
      have hfirst : Moves ⟨position,c::rest⟩ ⟨position+c.utf8Size,rest⟩ [c] :=
        advance_moves rfl
      refine ⟨c::body,hfirst.trans move,?_⟩
      intro hinfix
      rcases infix_cons_iff.mp hinfix with hinitial | hinfix
      · have hrest : rest = body++(['*','/']++done.rest) := by
          rw [← append_assoc]
          exact move.rest
        have htext : ['*','/'] <+: c::rest := by
          rw [hrest,← cons_append]
          exact hinitial.trans (prefix_append ..)
        exact hstarts ( isPrefixOf_iff_prefix.mpr htext)
      · exact hopen hinfix

theorem skip_moves (h : lexer.skip = .ok (some done)) :
    ∃ word,Moves lexer done word ∧ word ≠ [] ∧ Skipped word done.rest := by
  unfold skip at h
  split_ifs at h with hwhite hline hblock
  · obtain rfl := Option.some.inj (Except.ok.inj h)
    obtain ⟨c,hc,hwhite⟩ := peek_any hwhite
    exact ⟨[c],advance_moves hc,by simp,.space hwhite⟩
  · obtain rfl := Option.some.inj (Except.ok.inj h)
    obtain ⟨hfirst,hsecond⟩ := starts_cons hline
    obtain ⟨hsecond,_⟩ := starts_cons hsecond
    rw [skipWhile_of_peek hfirst rfl,skipWhile_of_peek hsecond rfl]
    obtain ⟨body,move,hall,hend⟩ := skipWhile_moves lexer.advance.advance fun c => c ≠ '\n'
    refine ⟨_,(starts_two hline).trans move,by simp,.line ?_ ?_⟩
    · intro hmem
      simpa using hall _ hmem
    · intro c hc
      rw [peek,hc] at hend
      simpa using hend
  · obtain ⟨after,hafter,h⟩ := map_eq_ok h
    obtain rfl := Option.some.inj h
    obtain ⟨body,move,hopen⟩ := blockComment_moves hafter
    exact ⟨_,(starts_two hblock).trans move,by simp,.block hopen⟩
  · cases h

theorem doubled_moves {kind : Kind} (h : lexer.doubled = some kind) :
    ∃ word,Moves lexer lexer.advance.advance word ∧ word ≠ [] := by
  unfold doubled at h
  split_ifs at h with hdots hle hne hge
  · exact ⟨_,starts_two hdots,by simp⟩
  · exact ⟨_,starts_two hle,by simp⟩
  · exact ⟨_,starts_two hne,by simp⟩
  · exact ⟨_,starts_two hge,by simp⟩

theorem scan_moves {fuel : ℕ} {c : Char} {kind : Kind} {decoded : Option (List Char)}
    (hpeek : lexer.peek = some c) (h : lexer.scan fuel c = .ok (kind,decoded,done)) :
    ∃ word,Moves lexer done word ∧ word ≠ [] := by
  have hone : ∃ word,Moves lexer lexer.advance word ∧ word ≠ [] :=
    ⟨[c],advance_moves hpeek,by simp⟩
  unfold scan at h
  cases hsingle : punctuation c with
  | some single =>
    rw [hsingle] at h
    obtain ⟨_,_,rfl⟩ := Except.ok.inj h
    exact hone
  | none =>
    cases hdouble : lexer.doubled with
    | some double =>
      rw [hsingle,hdouble] at h
      obtain ⟨_,_,rfl⟩ := Except.ok.inj h
      exact doubled_moves hdouble
    | none =>
      rw [hsingle,hdouble] at h
      dsimp only at h
      split_ifs at h with hlt hgt hquote hdollar hnumber hdot hident
      · obtain ⟨_,_,rfl⟩ := Except.ok.inj h
        exact hone
      · obtain ⟨_,_,rfl⟩ := Except.ok.inj h
        exact hone
      · obtain ⟨⟨text,after⟩,hafter,h⟩ := bind_eq_ok h
        obtain ⟨_,_,rfl⟩ := Except.ok.inj h
        exact quoted_moves hpeek hafter
      · obtain ⟨⟨text,after⟩,hafter,h⟩ := bind_eq_ok h
        obtain ⟨_,_,rfl⟩ := Except.ok.inj h
        obtain ⟨word,move⟩ := parameter_moves hafter
        exact ⟨_,(advance_moves hpeek).trans move,by simp⟩
      · obtain ⟨⟨found,after⟩,hafter,h⟩ := bind_eq_ok h
        obtain ⟨_,_,rfl⟩ := Except.ok.inj h
        refine number_moves ?_ hafter
        rw [hpeek]
        simpa using hnumber
      · obtain ⟨_,_,rfl⟩ := Except.ok.inj h
        exact hone
      · obtain ⟨_,_,rfl⟩ := Except.ok.inj h
        obtain ⟨word,move⟩ :=
          skipWhile_moves_of_peek (p := fun c => identStart c || isAsciiDigit c) hpeek
            (by rw [hident,Bool.true_or])
        exact ⟨_,move,by simp⟩
      · cases h

end Lexer

theorem tokenizeFrom_lexed {limit quoteFuel fuel : ℕ} {lexer : Lexer} {before tokens : List Token}
    (h : tokenizeFrom limit quoteFuel fuel lexer before = .ok tokens) :
    ∃ found,tokens = before++found ∧ Lexed lexer.position lexer.rest found := by
  induction fuel generalizing lexer before with
  | zero => cases h
  | succ fuel ih =>
    simp only [tokenizeFrom] at h
    cases hpeek : lexer.peek with
    | none =>
      rw [hpeek] at h
      obtain rfl := Except.ok.inj h
      have hrest : lexer.rest = [] := head?_eq_none_iff.mp hpeek
      rw [hrest]
      exact ⟨[],(append_nil _).symm,.done _⟩
    | some c =>
      rw [hpeek] at h
      obtain ⟨skipped,hskipped,h⟩ := bind_eq_ok h
      cases skipped with
      | some after =>
        obtain ⟨found,htokens,hfound⟩ := ih h
        obtain ⟨word,move,_,hgap⟩ := Lexer.skip_moves hskipped
        rw [move.position] at hfound
        rw [move.rest]
        exact ⟨found,htokens,.skip hgap hfound⟩
      | none =>
        obtain ⟨⟨kind,decoded,done⟩,hdone,h⟩ := bind_eq_ok h
        dsimp only at h
        obtain ⟨hlimit,h⟩ := of_ite_error h
        obtain ⟨found,htokens,hfound⟩ := ih h
        obtain ⟨word,move,hne⟩ := Lexer.scan_moves hpeek hdone
        rw [move.rest]
        refine ⟨⟨kind,⟨lexer.position,done.position⟩,decoded⟩::found,?_,
          .token hne rfl move.position hfound⟩
        rw [htokens,append_assoc,singleton_append]

structure Ends {α : Type} (x : Except Failure α) : Prop where
  enough : x ≠ .error .fuel

namespace Ends

variable {α β : Type}

theorem ok (a : α) : Ends (.ok a) := ⟨nofun⟩

theorem error (lexer : Lexer) (start : ℕ) (kind : ErrorKind) (message : String) :
    Ends (lexer.error start kind message : Except Failure α) := ⟨nofun⟩

theorem bind {x : Except Failure α} {f : α → Except Failure β} (first : Ends x)
    (next : ∀ a,x = .ok a → Ends (f a)) : Ends (x >>= f) := by
  cases x with
  | ok a => exact next a rfl
  | error e =>
    constructor
    intro h
    apply first.enough
    rw [Except.error.inj h]

end Ends

namespace Lexer

variable (lexer : Lexer)

theorem exponent_ends (start : ℕ) (float : Bool) : Ends (exponent start lexer float) := by
  unfold exponent
  dsimp only
  split_ifs
  · exact Ends.ok _
  · exact Ends.error ..
  · exact Ends.ok _

theorem number_ends : Ends lexer.number := by
  unfold number
  apply Ends.bind (exponent_ends ..)
  rintro ⟨read,float⟩ _
  dsimp only
  split_ifs
  · exact Ends.error ..
  · exact Ends.error ..
  · exact Ends.ok _
  · exact Ends.ok _

theorem hex_ends (start digits value : ℕ) : Ends (hex start digits value lexer) := by
  induction digits generalizing value lexer with
  | zero => exact Ends.ok _
  | succ digits ih =>
    simp only [hex]
    cases lexer.peek.bind toHexDigit with
    | none => exact Ends.error ..
    | some digit => exact ih ..

theorem scalarChar_ends (start scalar : ℕ) : Ends (scalarChar start scalar lexer) := by
  unfold scalarChar
  cases charFromU32 scalar with
  | none => exact Ends.error ..
  | some c => exact Ends.ok _

theorem lowSurrogate_ends (start : ℕ) : Ends (lowSurrogate start lexer) := by
  unfold lowSurrogate
  split_ifs
  · exact hex_ends ..
  · exact Ends.error ..

theorem unicode_ends (digits start : ℕ) : Ends (unicode digits start lexer) := by
  unfold unicode
  apply Ends.bind (hex_ends ..)
  rintro ⟨scalar,read⟩ _
  dsimp only
  split_ifs
  · apply Ends.bind (lowSurrogate_ends ..)
    rintro ⟨low,after⟩ _
    dsimp only
    split_ifs
    · exact scalarChar_ends ..
    · exact Ends.error ..
  · exact scalarChar_ends ..

theorem escape_ends : Ends lexer.escape := by
  unfold escape
  dsimp only
  split
  · exact unicode_ends ..
  · exact unicode_ends ..
  · split
    · exact Ends.ok _
    · exact Ends.error ..

theorem quotedChar_ends (quote : Char) (start : ℕ) : Ends (quotedChar quote start lexer) := by
  unfold quotedChar
  cases lexer.peek with
  | none => exact Ends.error ..
  | some c =>
    dsimp only
    split_ifs
    · exact Ends.ok _
    · exact Ends.ok _
    · apply Ends.bind (escape_ends _)
      intro a _
      exact Ends.ok _
    · exact Ends.ok _

variable {fuel : ℕ}

theorem quotedFrom_ends (quote : Char) (start : ℕ) (result : List Char)
    (hfuel : lexer.rest.length < fuel) : Ends (quotedFrom quote start fuel lexer result) := by
  induction fuel generalizing lexer result with
  | zero => omega
  | succ fuel ih =>
    simp only [quotedFrom]
    apply Ends.bind (quotedChar_ends ..)
    rintro ⟨next,after⟩ hafter
    obtain ⟨word,move,hne⟩ := quotedChar_moves hafter
    have hless:=move.length_lt hne
    cases next with
    | none => exact Ends.ok _
    | some c =>
      dsimp only
      split_ifs
      · exact Ends.error ..
      · exact ih after _ (by omega)

theorem advance_length : lexer.advance.rest.length ≤ lexer.rest.length := by
  cases hrest : lexer.rest with
  | nil => simp only [advance,hrest,le_refl]
  | cons c rest => simp only [advance,hrest,length_cons,Nat.le_add_right]

theorem quoted_ends (quote : Char) (hfuel : lexer.rest.length < fuel) :
    Ends (quoted fuel quote lexer) :=
  quotedFrom_ends _ _ _ _ (lexer.advance_length.trans_lt hfuel)

theorem parameter_ends (start : ℕ) (hfuel : lexer.rest.length < fuel) :
    Ends (parameter fuel start lexer) := by
  unfold parameter
  split_ifs
  · exact quoted_ends _ _ hfuel
  · exact Ends.ok _
  · exact Ends.error ..

theorem blockComment_ends (start position : ℕ) (rest : List Char) :
    Ends (blockComment start position rest) := by
  induction rest generalizing position with
  | nil => exact Ends.error ..
  | cons c rest ih =>
    simp only [blockComment]
    split_ifs
    · exact Ends.ok _
    · exact ih _

theorem skip_ends : Ends lexer.skip := by
  unfold skip
  split_ifs
  · exact Ends.ok _
  · exact Ends.ok _
  · apply Ends.bind (blockComment_ends ..)
    intro a _
    exact Ends.ok _
  · exact Ends.ok _

theorem scan_ends (c : Char) (hfuel : lexer.rest.length < fuel) : Ends (lexer.scan fuel c) := by
  unfold scan
  split
  · exact Ends.ok _
  · exact Ends.ok _
  · split_ifs
    · exact Ends.ok _
    · exact Ends.ok _
    · apply Ends.bind (quoted_ends _ _ hfuel)
      intro a _
      exact Ends.ok _
    · apply Ends.bind (parameter_ends _ _ (lexer.advance_length.trans_lt hfuel))
      intro a _
      exact Ends.ok _
    · apply Ends.bind (number_ends _)
      intro a _
      exact Ends.ok _
    · exact Ends.ok _
    · exact Ends.ok _
    · exact Ends.error ..

end Lexer

theorem tokenizeFrom_ends (limit : ℕ) {quoteFuel fuel : ℕ} (lexer : Lexer) (tokens : List Token)
    (hquote : lexer.rest.length < quoteFuel) (hfuel : lexer.rest.length < fuel) :
    Ends (tokenizeFrom limit quoteFuel fuel lexer tokens) := by
  induction fuel generalizing lexer tokens with
  | zero => omega
  | succ fuel ih =>
    simp only [tokenizeFrom]
    cases hpeek : lexer.peek with
    | none => exact Ends.ok _
    | some c =>
      apply Ends.bind lexer.skip_ends
      intro skipped hskipped
      cases skipped with
      | some after =>
        obtain ⟨word,move,hne,_⟩ := Lexer.skip_moves hskipped
        have hless:=move.length_lt hne
        exact ih after tokens (by omega) (by omega)
      | none =>
        apply Ends.bind (lexer.scan_ends c hquote)
        rintro ⟨kind,decoded,done⟩ hdone
        obtain ⟨word,move,hne⟩ := Lexer.scan_moves hpeek hdone
        have hless:=move.length_lt hne
        dsimp only
        split_ifs
        · exact Ends.error ..
        · exact ih done _ (by omega) (by omega)

theorem tokenizeWith_ends {fuel : ℕ} (limit : ℕ) (source : List Char)
    (hfuel : source.length < fuel) : Ends (tokenizeWith fuel limit source) :=
  tokenizeFrom_ends limit ⟨0,source⟩ [] hfuel hfuel

end Zeppelin.Cypher
