-- SUMMARY: Scanning the text of tokens gives the tokens back.
import FeatureStore.Json.Printing
import FeatureStore.Json.Reading

/-!
# Scanning what has been rendered

Tokens that are written one after the other without blanks are found again by a scan. A
numeral ends only where the next character cannot belong to it, so in a list of tokens a
numeral has to be followed by a comma or a closing bracket, or to be the last. A control
character that has no letter is written as the escape of its unit, and comes back as that
unit.
-/

namespace FeatureStore

namespace Json

/-! ## Tokens that are read back -/

/-- What a scan makes of a piece that has been rendered. -/
def Piece.scanned : Piece → Piece
  | .unit value => .unit value
  | .char c =>
    if c.toNat < 32 ∧ c ∉ ['\x08', '\t', '\n', '\x0c', '\r'] then .unit c.toNat else .char c

/-- The pieces of a string are characters, and a numeral is that of an integer. -/
def Token.Plain : Token → Prop
  | .string ps => ∃ text, ps = pieces text
  | .numeral n => ∃ i, n = .ofInt i
  | _ => True

/-- What a scan makes of a token that has been rendered. -/
def Token.scanned : Token → Token
  | .string ps => .string (ps.map Piece.scanned)
  | token => token

/-- The token cannot continue a numeral before it. -/
def Token.Delimits (token : Token) : Prop :=
  token = .comma ∨ token = .closeArray ∨ token = .closeObject

/-- Every numeral is the last token or stands before a token that ends it. -/
def Separated : List Token → Prop
  | [] => True
  | token :: rest =>
    ((∃ n, token = .numeral n) → ∀ next ∈ rest.head?, next.Delimits) ∧ Separated rest

namespace Scan

/-! ## Words and marks -/

theorem run_cons {scan : Scan} {c : Char} (next : Scan) (tokens : List Token)
    (h : scan.next c = some (next, tokens)) (rest : List Char) :
    scan.run (c :: rest) = (next.run rest).map (tokens ++ ·) := by
  rw [run, h]

/-- A character that completes no token. -/
theorem run_cons_nil {scan : Scan} {c : Char} (next : Scan) (h : scan.next c = some (next, []))
    (rest : List Char) : scan.run (c :: rest) = next.run rest := by
  rw [run_cons next [] h]
  simp

/-- The letters of a word that are still to come. -/
theorem run_word (token : Token) (letter : Char) (letters rest : List Char) :
    (word (letter :: letters) token).run (letter :: letters ++ rest)
      = (between.run rest).map (token :: ·) := by
  induction letters generalizing letter with
  | nil =>
    rw [List.singleton_append, run_cons between [token] (by simp [next])]
    rfl
  | cons second letters ih =>
    rw [List.cons_append, run_cons_nil (word (second :: letters) token) (by simp [next]), ih]

/-! ## Strings -/

theorem digits_control : ∀ v < 32,
    Hexadecimal.digits 4 v = ['0', '0', Nat.digitChar (v / 16), Nat.digitChar (v % 16)] ∧
      Hexadecimal.digitValue? (Nat.digitChar (v / 16)) = some (v / 16) ∧
      Hexadecimal.digitValue? (Nat.digitChar (v % 16)) = some (v % 16) := by
  decide

/-- The four digits of a control character. -/
theorem run_unit (read : List Piece) {v : Nat} (h : v < 32) (rest : List Char) :
    (unit read 0 0).run (Hexadecimal.digits 4 v ++ rest) = (text (.unit v :: read)).run rest := by
  obtain ⟨hdigits, hhigh, hlow⟩ := digits_control v h
  have hzero : Hexadecimal.digitValue? '0' = some 0 := by decide
  have hvalue : v / 16 * 16 + v % 16 = v := by omega
  rw [hdigits]
  simp only [List.cons_append, List.nil_append]
  rw [run_cons_nil (unit read 1 0) (by simp [next, hzero]),
    run_cons_nil (unit read 2 0) (by simp [next, hzero]),
    run_cons_nil (unit read 3 (v / 16)) (by simp [next, hhigh]),
    run_cons_nil (text (.unit v :: read)) (by simp [next, hlow, hvalue])]

/-- A letter after a backslash. -/
theorem run_escape (read : List Piece) {letter c : Char} (hunit : letter ≠ 'u')
    (h : escaped? letter = some c) (rest : List Char) :
    (text read).run ('\\' :: letter :: rest) = (text (.char c :: read)).run rest := by
  rw [run_cons_nil (escape read) rfl,
    run_cons_nil (text (.char c :: read)) (by simp [next, hunit, h])]

/-- A character is escaped by a letter, escaped by its digits, or written as it is. -/
theorem run_char (read : List Piece) (c : Char) (rest : List Char) :
    (text read).run ((Piece.char c).render ++ rest)
      = (text ((Piece.char c).scanned :: read)).run rest := by
  by_cases hletter : c ∈ ['"', '\\', '\x08', '\t', '\n', '\x0c', '\r']
  · simp only [List.mem_cons, List.not_mem_nil, or_false] at hletter
    rcases hletter with rfl | rfl | rfl | rfl | rfl | rfl | rfl
    all_goals exact run_escape read (by decide) (by decide) rest
  · simp only [List.mem_cons, List.not_mem_nil, or_false, not_or] at hletter
    obtain ⟨hquote, hslash, hb, ht, hn, hf, hr⟩ := hletter
    by_cases hcontrol : c.toNat < 32
    · have hrender : (Piece.char c).render = '\\' :: 'u' :: Hexadecimal.digits 4 c.toNat := by
        simp [Piece.render, hquote, hslash, hb, ht, hn, hf, hr, hcontrol]
      have hscanned : (Piece.char c).scanned = .unit c.toNat := by
        simp [Piece.scanned, hcontrol, hb, ht, hn, hf, hr]
      rw [hrender, hscanned, List.cons_append, List.cons_append,
        run_cons_nil (escape read) rfl, run_cons_nil (unit read 0 0) rfl,
        run_unit read hcontrol]
    · have hrender : (Piece.char c).render = [c] := by
        simp [Piece.render, hquote, hslash, hb, ht, hn, hf, hr, hcontrol]
      have hscanned : (Piece.char c).scanned = .char c := by
        simp [Piece.scanned, hcontrol]
      rw [hrender, hscanned, List.singleton_append,
        run_cons_nil (text (.char c :: read)) (by simp [next, hquote, hslash, hcontrol])]

theorem run_text (text : List Char) (read : List Piece) (rest : List Char) :
    (Scan.text read).run ((text.map Piece.char).flatMap Piece.render ++ '"' :: rest)
      = (between.run rest).map
          (Token.string (read.reverse ++ (text.map Piece.char).map Piece.scanned) :: ·) := by
  induction text generalizing read with
  | nil =>
    rw [List.map_nil, List.flatMap_nil, List.nil_append,
      run_cons between [.string read.reverse] rfl]
    simp
  | cons c text ih =>
    rw [List.map_cons, List.flatMap_cons, List.append_assoc, run_char, ih]
    simp

/-! ## Numerals -/

theorem isDigit_of_mem {n : Nat} {c : Char} (h : c ∈ Nat.toDigits 10 n) : c.isDigit = true :=
  Nat.isDigit_of_mem_toDigits (by decide) (by decide) h

/-- The digits of a positive number begin with a positive one. -/
theorem exists_toDigits_cons {n : Nat} (h : 0 < n) :
    ∃ first rest, Nat.toDigits 10 n = first :: rest ∧ first ≠ '0' := by
  induction n using Nat.strongRecOn with
  | ind n ih =>
    by_cases hsmall : n < 10
    · refine ⟨_, [], Nat.toDigits_of_lt_base hsmall, ?_⟩
      intro hzero
      have hvalue := Nat.toNat_digitChar_of_lt_ten hsmall
      rw [hzero] at hvalue
      have : ('0' : Char).toNat = 48 := rfl
      omega
    · obtain ⟨first, rest, hdigits, hfirst⟩ := ih (n / 10) (by omega) (by omega)
      refine ⟨first, rest ++ [(n % 10).digitChar], ?_, hfirst⟩
      rw [Nat.toDigits_of_base_le (by decide) (by omega), hdigits, List.cons_append]

theorem run_whole (n : Numeral) {digits : List Char} (h : ∀ c ∈ digits, c.isDigit = true)
    (rest : List Char) :
    (numeral .whole n).run (digits ++ rest)
      = (numeral .whole { n with whole := n.whole ++ digits }).run rest := by
  induction digits generalizing n with
  | nil => simp
  | cons c digits ih =>
    have hdigit : c.isDigit = true := h c List.mem_cons_self
    rw [List.cons_append,
      run_cons_nil (numeral .whole { n with whole := n.whole ++ [c] })
        (by simp [next, Numeral.push, hdigit]),
      ih _ (fun d hd => h d (List.mem_cons_of_mem c hd))]
    simp

/-- The digits of a number, of which the first has the phase of its own. -/
theorem run_digits (n : Nat) (read : Numeral) (hread : read.whole = []) (rest : List Char) :
    ∃ phase, (phase = .zero ∨ phase = .whole) ∧
      (numeral .minus read).run (Nat.toDigits 10 n ++ rest)
        = (numeral phase { read with whole := Nat.toDigits 10 n }).run rest := by
  rcases Nat.eq_zero_or_pos n with rfl | hpos
  · have hdigits : Nat.toDigits 10 0 = ['0'] := rfl
    refine ⟨.zero, .inl rfl, ?_⟩
    rw [hdigits, List.singleton_append,
      run_cons_nil (numeral .zero { read with whole := ['0'] })
        (by simp [next, Numeral.push, hread])]
  · obtain ⟨first, others, hdigits, hfirst⟩ := exists_toDigits_cons hpos
    have hall : ∀ c ∈ first :: others, c.isDigit = true := fun c hc => isDigit_of_mem (hdigits ▸ hc)
    refine ⟨.whole, .inr rfl, ?_⟩
    rw [hdigits, List.cons_append,
      run_cons_nil (numeral .whole { read with whole := [first] })
        (by simp [next, Numeral.push, hread, hfirst, hall first List.mem_cons_self]),
      run_whole _ (fun c hc => hall c (List.mem_cons_of_mem first hc))]
    simp

/-- A digit begins a numeral. -/
theorem run_between_digit {c : Char} (h : c.isDigit = true) (rest : List Char) :
    between.run (c :: rest) = (numeral .minus {}).run (c :: rest) := by
  have hne : ∀ d : Char, d.isDigit = false → c ≠ d := by
    intro d hd heq
    rw [heq, hd] at h
    cases h
  have hblank : isBlank c = false := by
    simp [isBlank, hne ' ' rfl, hne '\n' rfl, hne '\t' rfl, hne '\r' rfl]
  obtain ⟨⟨phase, n⟩, hpush⟩ : ∃ pushed, Numeral.push {} .minus c = some pushed := by
    by_cases hzero : c = '0'
    · exact ⟨_, if_pos hzero⟩
    · exact ⟨_, (if_neg hzero).trans (if_pos h)⟩
  have hstart : start c = some (numeral phase n, []) := by
    simp only [start, hblank, hne '[' rfl, hne ']' rfl, hne '\x7b' rfl, hne '\x7d' rfl, hne ',' rfl,
      hne ':' rfl, hne 'n' rfl, hne 't' rfl, hne 'f' rfl, hne '"' rfl, hne '-' rfl,
      Bool.false_eq_true, if_false, hpush, Option.map_some]
  have hnext : between.next c = (numeral .minus {}).next c := by
    simp [next, hstart, hpush]
  rw [run, run, hnext]

theorem run_numeral (i : Int) (rest : List Char) :
    ∃ phase, (phase = .zero ∨ phase = .whole) ∧
      between.run ((Numeral.ofInt i).render ++ rest) = (numeral phase (.ofInt i)).run rest := by
  by_cases hnegative : i < 0
  · obtain ⟨phase, hphase, hrun⟩ := run_digits i.natAbs { negative := true } rfl rest
    have hrender : (Numeral.ofInt i).render = '-' :: Nat.toDigits 10 i.natAbs := by
      simp [Numeral.render, Numeral.ofInt, hnegative]
    refine ⟨phase, hphase, ?_⟩
    rw [hrender, List.cons_append, run_cons_nil (numeral .minus { negative := true }) rfl, hrun]
    simp [Numeral.ofInt, hnegative]
  · obtain ⟨phase, hphase, hrun⟩ := run_digits i.natAbs {} rfl rest
    have hrender : (Numeral.ofInt i).render = Nat.toDigits 10 i.natAbs := by
      simp [Numeral.render, Numeral.ofInt, hnegative]
    obtain ⟨first, others, hdigits⟩ := List.exists_cons_of_ne_nil
      (Nat.toDigits_ne_nil : Nat.toDigits 10 i.natAbs ≠ [])
    have hfirst : first.isDigit = true := isDigit_of_mem (hdigits ▸ List.mem_cons_self)
    refine ⟨phase, hphase, ?_⟩
    rw [hrender, hdigits, List.cons_append, run_between_digit hfirst, ← List.cons_append, ← hdigits,
      hrun]
    simp [Numeral.ofInt, hnegative]

/-- A numeral is complete at the end of the text and where a token begins that ends it. -/
theorem run_ended {phase : NumeralPhase} (hphase : phase = .zero ∨ phase = .whole) (n : Numeral)
    {rest : List Char} (h : ∀ c ∈ rest.head?, c ∈ [',', ']', '\x7d']) :
    (numeral phase n).run rest = (between.run rest).map (.numeral n :: ·) := by
  cases rest with
  | nil => rcases hphase with rfl | rfl <;> rfl
  | cons c rest =>
    have hc := h c rfl
    simp only [List.mem_cons, List.not_mem_nil, or_false] at hc
    have hpush : n.push phase c = none := by
      rcases hphase with rfl | rfl <;> rcases hc with rfl | rfl | rfl <;> rfl
    have hcomplete : phase.isComplete = true := by
      rcases hphase with rfl | rfl <;> rfl
    simp only [run, next, hpush, hcomplete, if_true]
    cases start c with
    | none => rfl
    | some started => simp [Function.comp_def]

/-! ## Lists of tokens -/

/-- A token that is no numeral is complete by itself. -/
theorem run_token {token : Token} (hplain : token.Plain) (hnumeral : ∀ n, token ≠ .numeral n)
    (rest : List Char) :
    between.run (token.render ++ rest) = (between.run rest).map (token.scanned :: ·) := by
  cases token with
  | numeral n => exact absurd rfl (hnumeral n)
  | string ps =>
    obtain ⟨text, rfl⟩ := hplain
    have htext := run_text text.toList [] rest
    rw [Token.render, List.cons_append, List.append_assoc, List.singleton_append,
      run_cons_nil (.text []) rfl, pieces, htext]
    rfl
  | bool b =>
    cases b with
    | true => exact (run_cons_nil _ rfl _).trans (run_word (.bool true) 'r' ['u', 'e'] rest)
    | false => exact (run_cons_nil _ rfl _).trans (run_word (.bool false) 'a' ['l', 's', 'e'] rest)
  | null => exact (run_cons_nil _ rfl _).trans (run_word .null 'u' ['l', 'l'] rest)
  | openArray => exact run_cons between [.openArray] rfl rest
  | closeArray => exact run_cons between [.closeArray] rfl rest
  | openObject => exact run_cons between [.openObject] rfl rest
  | closeObject => exact run_cons between [.closeObject] rfl rest
  | comma => exact run_cons between [.comma] rfl rest
  | colon => exact run_cons between [.colon] rfl rest

theorem head_render_of_delimits {token : Token} (h : token.Delimits) :
    ∃ c rest, token.render = c :: rest ∧ c ∈ [',', ']', '\x7d'] := by
  rcases h with rfl | rfl | rfl <;> exact ⟨_, [], rfl, by decide⟩

end Scan

/-- A scan of separated tokens finds them. -/
theorem Token.scan_render {tokens : List Token} (hplain : ∀ token ∈ tokens, token.Plain)
    (hseparated : Separated tokens) :
    Token.scan (tokens.flatMap Token.render) = some (tokens.map Token.scanned) := by
  unfold Token.scan
  induction tokens with
  | nil => rfl
  | cons token rest ih =>
    obtain ⟨hdelimited, hrest⟩ := hseparated
    have hscan := ih (fun other hmem => hplain other (List.mem_cons_of_mem token hmem)) hrest
    rw [List.flatMap_cons]
    by_cases hnumeral : ∃ n, token = .numeral n
    · have hnext := hdelimited hnumeral
      obtain ⟨n, rfl⟩ := hnumeral
      obtain ⟨i, rfl⟩ := hplain _ List.mem_cons_self
      obtain ⟨phase, hphase, hrun⟩ := Scan.run_numeral i (rest.flatMap Token.render)
      have hend : ∀ c ∈ (rest.flatMap Token.render).head?, c ∈ [',', ']', '\x7d'] := by
        cases rest with
        | nil => simp
        | cons next others =>
          obtain ⟨c, tail, hrender, hc⟩ := Scan.head_render_of_delimits (hnext next rfl)
          simpa [List.flatMap_cons, hrender] using hc
      rw [Token.render, hrun, Scan.run_ended hphase _ hend, hscan]
      rfl
    · rw [Scan.run_token (hplain token List.mem_cons_self) (not_exists.mp hnumeral), hscan]
      rfl

end Json

end FeatureStore
