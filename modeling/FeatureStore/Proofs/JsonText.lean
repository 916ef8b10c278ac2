-- SUMMARY: A JSON value is read back from its text.
import FeatureStore.Proofs.Scanning

/-!
# Reading a value back from its text

The text of a written value is scanned into its tokens, and the tokens are read as this
value again, at any depth. So all that is lost is what a numeral or a string means. An
integer of sixty-four bits keeps its value, and so does any text, although some of its
characters come back as escapes. A value made of these is read back from its text as long
as the limit on the depth allows for its containers.
-/

namespace FeatureStore

namespace Json

namespace Written

/-! ## Tokens of a written value -/

/-- The tokens may stand after a value. -/
def Follows (tokens : List Token) : Prop := ∀ next ∈ tokens.head?, next.Delimits

/-- Separation of tokens that begin with no numeral is that of the others. -/
theorem separated_cons {token : Token} {rest : List Token} (h : ∀ n, token ≠ .numeral n) :
    Separated (token :: rest) ↔ Separated rest := by
  constructor
  · exact And.right
  · intro hrest
    exact ⟨fun ⟨n, hn⟩ => absurd hn (h n), hrest⟩

mutual

theorem separated_tokens {rest : List Token} (hrest : Separated rest) (hfollows : Follows rest) :
    (w : Written) → Separated (w.tokens ++ rest)
  | .null => (separated_cons (by simp)).mpr hrest
  | .bool _ => (separated_cons (by simp)).mpr hrest
  | .numeral _ => ⟨fun _ => hfollows, hrest⟩
  | .string _ => (separated_cons (by simp)).mpr hrest
  | .array items => by
    rw [tokens, List.cons_append, separated_cons (by simp)]
    exact (separated_itemTokens hrest true items).1
  | .object members => by
    rw [tokens, List.cons_append, separated_cons (by simp)]
    exact (separated_memberTokens hrest true members).1

theorem separated_itemTokens {rest : List Token} (hrest : Separated rest) (isFirst : Bool) :
    (items : List Written) → Separated (itemTokens isFirst items ++ rest) ∧
      (isFirst = false → Follows (itemTokens isFirst items ++ rest))
  | [] => by
    refine ⟨(separated_cons (by simp)).mpr hrest, fun _ next hnext => ?_⟩
    cases hnext
    exact .inr (.inl rfl)
  | item :: others => by
    obtain ⟨hothers, hfollows⟩ := separated_itemTokens hrest false others
    have hitem := separated_tokens hothers (hfollows rfl) item
    cases isFirst with
    | true =>
      refine ⟨?_, fun h => by cases h⟩
      simpa [itemTokens, separator] using hitem
    | false =>
      refine ⟨?_, fun _ next hnext => ?_⟩
      · simpa [itemTokens, separator, separated_cons] using hitem
      · cases hnext
        exact .inl rfl

theorem separated_memberTokens {rest : List Token} (hrest : Separated rest) (isFirst : Bool) :
    (members : List WrittenMember) → Separated (memberTokens isFirst members ++ rest) ∧
      (isFirst = false → Follows (memberTokens isFirst members ++ rest))
  | [] => by
    refine ⟨(separated_cons (by simp)).mpr hrest, fun _ next hnext => ?_⟩
    cases hnext
    exact .inr (.inr rfl)
  | (name, value) :: others => by
    obtain ⟨hothers, hfollows⟩ := separated_memberTokens hrest false others
    have hvalue := separated_tokens hothers (hfollows rfl) value
    cases isFirst with
    | true =>
      refine ⟨?_, fun h => by cases h⟩
      simpa [memberTokens, separator, separated_cons] using hvalue
    | false =>
      refine ⟨?_, fun _ next hnext => ?_⟩
      · simpa [memberTokens, separator, separated_cons] using hvalue
      · cases hnext
        exact .inl rfl

end

/-! ## Reading the tokens -/

namespace Reader

abbrev readAll (reader : Reader) (tokens : List Token) : Option Reader := tokens.foldlM next? reader

end Reader

/-- The first token of a value opens no array that is at its end. -/
theorem next?_opened (w : Written) (frames : List Frame) (rest : List Token) :
    (Reader.opened frames).readAll (w.tokens ++ rest)
      = (Reader.atValue (.array [] :: frames)).readAll (w.tokens ++ rest) := by
  cases w <;> rfl

mutual

/-- A reader that expects a value reads its tokens and completes it. -/
theorem readAll_tokens (frames : List Frame) (rest : List Token) :
    (w : Written) → (Reader.atValue frames).readAll (w.tokens ++ rest)
      = (Reader.complete w frames).readAll rest
  | .null => rfl
  | .bool _ => rfl
  | .numeral _ => rfl
  | .string _ => rfl
  | .array [] => rfl
  | .array (item :: items) => by
    have hopen : (Reader.atValue frames).readAll (tokens (.array (item :: items)) ++ rest)
        = (Reader.opened frames).readAll (item.tokens ++ (itemTokens false items ++ rest)) := by
      rw [← List.append_assoc]
      rfl
    rw [hopen, next?_opened, readAll_tokens (.array [] :: frames) (itemTokens false items ++ rest) item]
    exact readAll_itemTokens [item] frames rest items
  | .object [] => rfl
  | .object ((name, value) :: members) => by
    have hopen : (Reader.atValue frames).readAll
          (tokens (.object ((name, value) :: members)) ++ rest)
        = (Reader.atValue (.object [] name :: frames)).readAll
            (value.tokens ++ (memberTokens false members ++ rest)) := by
      rw [← List.append_assoc]
      rfl
    rw [hopen, readAll_tokens (.object [] name :: frames) (memberTokens false members ++ rest) value]
    exact readAll_memberTokens [(name, value)] frames rest members

/-- After an item the others of the array are read. -/
theorem readAll_itemTokens (before : List Written) (frames : List Frame) (rest : List Token) :
    (items : List Written) →
      (Reader.afterItem before frames).readAll (itemTokens false items ++ rest)
        = (Reader.complete (.array (before.reverse ++ items)) frames).readAll rest
  | [] => by
    rw [List.append_nil]
    rfl
  | item :: items => by
    have hcomma : (Reader.afterItem before frames).readAll (itemTokens false (item :: items) ++ rest)
        = (Reader.atValue (.array before :: frames)).readAll
            (item.tokens ++ (itemTokens false items ++ rest)) := by
      rw [← List.append_assoc]
      rfl
    have hitems := readAll_itemTokens (item :: before) frames rest items
    rw [List.reverse_cons, List.append_assoc, List.singleton_append] at hitems
    rw [hcomma, readAll_tokens (.array before :: frames) (itemTokens false items ++ rest) item]
    exact hitems

/-- After a member the others of the object are read. -/
theorem readAll_memberTokens (before : List WrittenMember) (frames : List Frame)
    (rest : List Token) : (members : List WrittenMember) →
      (Reader.afterMember before frames).readAll (memberTokens false members ++ rest)
        = (Reader.complete (.object (before.reverse ++ members)) frames).readAll rest
  | [] => by
    rw [List.append_nil]
    rfl
  | (name, value) :: members => by
    have hcomma : (Reader.afterMember before frames).readAll
          (memberTokens false ((name, value) :: members) ++ rest)
        = (Reader.atValue (.object before name :: frames)).readAll
            (value.tokens ++ (memberTokens false members ++ rest)) := by
      rw [← List.append_assoc]
      rfl
    have hmembers := readAll_memberTokens ((name, value) :: before) frames rest members
    rw [List.reverse_cons, List.append_assoc, List.singleton_append] at hmembers
    rw [hcomma,
      readAll_tokens (.object before name :: frames) (memberTokens false members ++ rest) value]
    exact hmembers

end

/-- A written value is read back from its tokens. -/
theorem ofTokens?_tokens (w : Written) : ofTokens? w.tokens = some w := by
  have hread : w.tokens.foldlM Reader.next? (.atValue []) = some (.done w) := by
    have hrest := readAll_tokens [] [] w
    rw [List.append_nil] at hrest
    exact hrest
  rw [ofTokens?, hread]
  rfl

/-! ## The text of a written value -/

mutual

/-- What is read of a written value that has been rendered: its strings may come back
    with escapes. -/
def scanned : Written → Written
  | .null => .null
  | .bool b => .bool b
  | .numeral n => .numeral n
  | .string ps => .string (ps.map Piece.scanned)
  | .array items => .array (scannedItems items)
  | .object members => .object (scannedMembers members)

def scannedItems : List Written → List Written
  | [] => []
  | item :: rest => item.scanned :: scannedItems rest

def scannedMembers : List WrittenMember → List WrittenMember
  | [] => []
  | (name, value) :: rest => (name.map Piece.scanned, value.scanned) :: scannedMembers rest

end

theorem map_scanned_separator (isFirst : Bool) :
    (separator isFirst).map Token.scanned = separator isFirst := by
  cases isFirst <;> rfl

mutual

theorem tokens_scanned : (w : Written) → w.scanned.tokens = w.tokens.map Token.scanned
  | .null => rfl
  | .bool _ => rfl
  | .numeral _ => rfl
  | .string _ => rfl
  | .array items => by
    simp only [scanned, tokens, List.map_cons, itemTokens_scanned true items]
    rfl
  | .object members => by
    simp only [scanned, tokens, List.map_cons, memberTokens_scanned true members]
    rfl

theorem itemTokens_scanned (isFirst : Bool) : (items : List Written) →
    itemTokens isFirst (scannedItems items) = (itemTokens isFirst items).map Token.scanned
  | [] => rfl
  | item :: rest => by
    simp only [scannedItems, itemTokens, List.map_append, map_scanned_separator,
      tokens_scanned item, itemTokens_scanned false rest]

theorem memberTokens_scanned (isFirst : Bool) : (members : List WrittenMember) →
    memberTokens isFirst (scannedMembers members) = (memberTokens isFirst members).map Token.scanned
  | [] => rfl
  | (name, value) :: rest => by
    simp only [scannedMembers, memberTokens, List.map_append, map_scanned_separator,
      tokens_scanned value, memberTokens_scanned false rest]
    rfl

end

/-- The strings of the value are texts, and its numerals are those of integers. -/
def Plain (w : Written) : Prop := ∀ token ∈ w.tokens, token.Plain

/-- The text of a plain written value is read as this value. -/
theorem ofText?_text {w : Written} (h : w.Plain) : ofText? w.text = some w.scanned := by
  have hseparated : Separated w.tokens := by
    have hnothing : Separated [] := trivial
    have hrest := separated_tokens hnothing (by simp [Follows]) w
    rwa [List.append_nil] at hrest
  have hscan : Token.scan w.text.toList = some w.scanned.tokens := by
    rw [text, String.toList_ofList, render, Token.scan_render h hseparated, tokens_scanned]
  rw [ofText?, hscan]
  exact ofTokens?_tokens w.scanned

end Written

/-! ## Strings and numerals -/

/-- A character comes back as itself or as the escape of its unit. -/
theorem characters?_scanned (c : Char) (rest : List Piece) :
    characters? ((Piece.char c).scanned :: rest) = (characters? rest).map (c :: ·) := by
  by_cases hcontrol : c.toNat < 32 ∧ c ∉ ['\x08', '\t', '\n', '\x0c', '\r']
  · have hscanned : (Piece.char c).scanned = .unit c.toNat := if_pos hcontrol
    have hhigh : isHighSurrogate c.toNat = false := by
      simp only [isHighSurrogate, Bool.and_eq_false_iff, decide_eq_false_iff_not]
      omega
    have hlow : isLowSurrogate c.toNat = false := by
      simp only [isLowSurrogate, Bool.and_eq_false_iff, decide_eq_false_iff_not]
      omega
    have hc : Char.ofNat c.toNat = c := Char.ofNat_toNat c
    rw [hscanned]
    cases rest with
    | nil => simp [characters?, hhigh, hlow, hc]
    | cons next rest =>
      cases next with
      | char d => simp [characters?, hhigh, hlow, hc]
      | unit value => simp [characters?, hhigh, hlow, hc]
  · have hscanned : (Piece.char c).scanned = .char c := if_neg hcontrol
    rw [hscanned, characters?]

/-- A text is read back from what is written of it. -/
theorem text?_scanned (s : String) : text? ((pieces s).map Piece.scanned) = some s := by
  have hcharacters : ∀ text : List Char,
      characters? ((text.map Piece.char).map Piece.scanned) = some text := by
    intro text
    induction text with
    | nil => rfl
    | cons c text ih =>
      rw [List.map_cons, List.map_cons, characters?_scanned, ih]
      rfl
  rw [text?, pieces, hcharacters, Option.map_some, String.ofList_toList]

/-- An integer that is kept exactly: it fits into sixty-four bits, with a sign or without. -/
def FitsWord (i : Int) : Prop := -(1 <<< 63 : Nat) ≤ i ∧ i < (1 <<< 64 : Nat)

/-- An integer of sixty-four bits is read back from its numeral. -/
theorem number?_ofInt {i : Int} (h : FitsWord i) : (Numeral.ofInt i).number? = some (.int i) := by
  obtain ⟨hlow, hhigh⟩ := h
  have hvalue : Nat.ofDigitChars 10 (Numeral.ofInt i).whole 0 = i.natAbs := Nat.ofDigitChars_ten_toDigits
  have hinteger : (Numeral.ofInt i).integer? = some i := by
    have hplain : (Numeral.ofInt i).fraction = [] ∧ (Numeral.ofInt i).exponent = none := ⟨rfl, rfl⟩
    rw [Numeral.integer?, if_pos hplain]
    simp only [hvalue]
    by_cases hnegative : i < 0
    · have hsign : (Numeral.ofInt i).negative = true := decide_eq_true hnegative
      have hbound : (1 <<< 63 : Nat) = 2 ^ 63 := rfl
      rw [if_pos hsign, if_pos (by omega)]
      congr 1
      omega
    · have hsign : ¬ (Numeral.ofInt i).negative = true := by simp [Numeral.ofInt, hnegative]
      have hbound : significandLimit = 2 ^ 64 - 1 := rfl
      rw [if_neg hsign, if_pos (by omega)]
      congr 1
      omega
  simp [Numeral.number?, hinteger]

/-! ## Values -/

mutual

/-- The numbers of the value are integers of sixty-four bits, and the members of its objects
    stand in the order of their names. -/
def Exact : Json → Prop
  | .null | .bool _ | .string _ => True
  | .number n => ∃ i, n = .int i ∧ FitsWord i
  | .array items => ExactItems items
  | .object members => Keyed.Ascending members ∧ ExactMembers members

def ExactItems : List Json → Prop
  | [] => True
  | item :: rest => item.Exact ∧ ExactItems rest

def ExactMembers : List (String × Json) → Prop
  | [] => True
  | (_, value) :: rest => value.Exact ∧ ExactMembers rest

end

mutual

/-- How deep the containers of the value nest. -/
def depth : Json → Nat
  | .null | .bool _ | .number _ | .string _ => 0
  | .array items => itemsDepth items + 1
  | .object members => membersDepth members + 1

def itemsDepth : List Json → Nat
  | [] => 0
  | item :: rest => max item.depth (itemsDepth rest)

def membersDepth : List (String × Json) → Nat
  | [] => 0
  | (_, value) :: rest => max value.depth (membersDepth rest)

end

theorem exactMembers_iff {members : List (String × Json)} :
    ExactMembers members ↔ ∀ member ∈ members, member.2.Exact := by
  induction members with
  | nil => simp [ExactMembers]
  | cons member rest ih => rw [ExactMembers, ih, List.forall_mem_cons]

theorem membersDepth_le_iff {members : List (String × Json)} {limit : Nat} :
    membersDepth members ≤ limit ↔ ∀ member ∈ members, member.2.depth ≤ limit := by
  induction members with
  | nil => simp [membersDepth]
  | cons member rest ih => rw [membersDepth, Nat.max_le, ih, List.forall_mem_cons]

theorem plain_separator (isFirst : Bool) :
    ∀ token ∈ Written.separator isFirst, token.Plain := by
  cases isFirst <;> simp [Written.separator, Token.Plain]

mutual

theorem plain_written : (v : Json) → v.Exact → v.written.Plain
  | .null, _ => by simp [written, Written.Plain, Written.tokens, Token.Plain]
  | .bool b, _ => by simp [written, Written.Plain, Written.tokens, Token.Plain]
  | .number n, h => by
    obtain ⟨i, rfl, -⟩ := h
    intro token htoken
    rw [List.mem_singleton.mp htoken]
    exact ⟨i, rfl⟩
  | .string s, _ => by
    intro token htoken
    rw [List.mem_singleton.mp htoken]
    exact ⟨s, rfl⟩
  | .array items, h => by
    intro token htoken
    rcases List.mem_cons.mp htoken with rfl | htoken
    · trivial
    · exact plain_writtenItems true items h token htoken
  | .object members, h => by
    intro token htoken
    rcases List.mem_cons.mp htoken with rfl | htoken
    · trivial
    · exact plain_writtenMembers true members h.2 token htoken

theorem plain_writtenItems (isFirst : Bool) : (items : List Json) → ExactItems items →
    ∀ token ∈ Written.itemTokens isFirst (writtenItems items), token.Plain
  | [], _ => by simp [writtenItems, Written.itemTokens, Token.Plain]
  | item :: rest, h => by
    intro token htoken
    simp only [writtenItems, Written.itemTokens, List.mem_append] at htoken
    rcases htoken with (hseparator | hitem) | hrest
    · exact plain_separator isFirst token hseparator
    · exact plain_written item h.1 token hitem
    · exact plain_writtenItems false rest h.2 token hrest

theorem plain_writtenMembers (isFirst : Bool) : (members : List (String × Json)) →
    ExactMembers members →
    ∀ token ∈ Written.memberTokens isFirst (writtenMembers members), token.Plain
  | [], _ => by simp [writtenMembers, Written.memberTokens, Token.Plain]
  | (name, value) :: rest, h => by
    intro token htoken
    simp only [writtenMembers, Written.memberTokens, List.mem_append, List.mem_cons,
      List.not_mem_nil, or_false] at htoken
    rcases htoken with ((hseparator | rfl | rfl) | hvalue) | hrest
    · exact plain_separator isFirst token hseparator
    · exact ⟨name, rfl⟩
    · trivial
    · exact plain_written value h.1 token hvalue
    · exact plain_writtenMembers false rest h.2 token hrest

end

mutual

/-- An exact value is read back from its written form, if its containers nest no deeper
    than the limit. -/
theorem value?_scanned {limit : Nat} : (v : Json) → v.Exact → v.depth ≤ limit →
    v.written.scanned.value? limit = some v
  | .null, _, _ => rfl
  | .bool _, _, _ => rfl
  | .number n, h, _ => by
    obtain ⟨i, rfl, hi⟩ := h
    simp [written, writtenNumber, Written.scanned, Written.value?, number?_ofInt hi]
  | .string s, _, _ => by
    simp [written, Written.scanned, Written.value?, text?_scanned]
  | .array items, h, hdepth => by
    cases limit with
    | zero => exact absurd hdepth (Nat.not_succ_le_zero _)
    | succ limit =>
      have hitems := values?_scanned items h (Nat.le_of_succ_le_succ hdepth)
      simp [written, Written.scanned, Written.value?, hitems]
  | .object members, h, hdepth => by
    cases limit with
    | zero => exact absurd hdepth (Nat.not_succ_le_zero _)
    | succ limit =>
      have hmembers := members?_scanned members h.2 (Nat.le_of_succ_le_succ hdepth)
      simp [written, Written.scanned, Written.value?, hmembers, ofMembers,
        Keyed.ofList_of_ascending h.1]

theorem values?_scanned {limit : Nat} : (items : List Json) → ExactItems items →
    itemsDepth items ≤ limit →
    Written.values? limit (Written.scannedItems (writtenItems items)) = some items
  | [], _, _ => rfl
  | item :: rest, h, hdepth => by
    obtain ⟨hitem, hrest⟩ := Nat.max_le.mp hdepth
    simp [writtenItems, Written.scannedItems, Written.values?, value?_scanned item h.1 hitem,
      values?_scanned rest h.2 hrest]

theorem members?_scanned {limit : Nat} : (members : List (String × Json)) →
    ExactMembers members → membersDepth members ≤ limit →
    Written.members? limit (Written.scannedMembers (writtenMembers members)) = some members
  | [], _, _ => rfl
  | (name, value) :: rest, h, hdepth => by
    obtain ⟨hvalue, hrest⟩ := Nat.max_le.mp hdepth
    simp [writtenMembers, Written.scannedMembers, Written.members?, text?_scanned,
      value?_scanned value h.1 hvalue, members?_scanned rest h.2 hrest]

end

/-- An exact value is read back from its text, if its containers nest no deeper than the
    limit. -/
theorem ofTextWithin?_print {v : Json} (h : v.Exact) {limit : Nat} (hdepth : v.depth ≤ limit) :
    ofTextWithin? limit v.print = some v := by
  rw [ofTextWithin?, print, Written.ofText?_text (plain_written v h), Option.bind_some]
  exact value?_scanned v h hdepth

end Json

end FeatureStore
