import CoChange.Json.Parser
import CoChange.Json.Printer
import CoChange.Proofs.Text

/-!
# Written JSON documents are read back

* **`readString_quote`**: a quoted text is read back, escapes included.
* **`Number.readable_nat`**: so is a natural number that fits a word (`Number.Readable`).
* **`readValue_pretty`**: so is a value that is written over several lines, if its numbers are
  readable and it is not nested too deeply; by `Value.nestedInduction`, with what follows it left
  over.
* **`parse_pretty`**: so the document of such a value is the value.

Which floating point numbers are readable is a matter of the reader (`FloatReader.ReadsBack`);
integers are with every one.
-/

namespace CoChange.Json

/-! ## Strings -/

/-- The number of a control character has four digits, two of them zeros. -/
theorem hexDigits_control : ∀ n < 32, hexDigits 4 n =
    ['0', '0', Nat.digitChar (n / 16), Nat.digitChar (n % 16)] := by
  decide

/-- A digit below sixteen is read as its value. -/
theorem hexDigit?_digitChar : ∀ n < 16, hexDigit? (Nat.digitChar n) = some n := by
  decide

/-- A control character is read back from its code. -/
theorem readUnicodeEscape_control {c : Char} (h : c.toNat < 32) (rest : List Char) :
    readUnicodeEscape (hexDigits 4 c.toNat ++ rest) = .ok (c, rest) := by
  have hunit : readUnit (hexDigits 4 c.toNat ++ rest) = .ok (c.toNat, rest) := by
    have hsum : ((0 * 16 + 0) * 16 + c.toNat / 16) * 16 + c.toNat % 16 = c.toNat := by omega
    rw [hexDigits_control c.toNat h, List.cons_append, List.cons_append, List.cons_append,
      List.cons_append, List.nil_append, readUnit.eq_def]
    simp only [hexDigit?_digitChar _ (show c.toNat / 16 < 16 by omega),
      hexDigit?_digitChar _ (show c.toNat % 16 < 16 by omega), show hexDigit? '0' = some 0 from rfl,
      hsum]
  rw [readUnicodeEscape, hunit, ok_bind]
  simp only
  rw [if_neg (by omega), if_neg (by omega), Char.ofNat_toNat]
  rfl

/-- One character of a string, in its written form, is read as the character. -/
theorem readStringBody_escapeChar (fuel : Nat) (acc : List Char) (c : Char) (rest : List Char) :
    readStringBody (fuel + 1) acc (escapeChar c ++ rest) =
      readStringBody fuel (c :: acc) rest := by
  unfold escapeChar
  -- the escapes of one letter
  split
  · subst_vars; rfl
  split
  · subst_vars; rfl
  split
  · subst_vars; rfl
  split
  · subst_vars; rfl
  split
  · subst_vars; rfl
  split
  · subst_vars; rfl
  split
  · subst_vars; rfl
  split
  · rename_i hcontrol
    show (readUnicodeEscape (hexDigits 4 c.toNat ++ rest) >>= fun p =>
      readStringBody fuel (p.1 :: acc) p.2) = _
    rw [readUnicodeEscape_control hcontrol, ok_bind]
  · rename_i hquote hslash _ _ _ _ _ hcontrol
    rw [List.singleton_append, readStringBody.eq_def]
    simp only [if_neg hquote, if_neg hslash, if_neg hcontrol]

/-- A text that is written with escapes is read back up to its closing quote. The induction is on
the text, one character or escape at a time. -/
theorem readStringBody_escaped {cs : List Char} {fuel : Nat} (hfuel : cs.length < fuel)
    (acc rest : List Char) :
    readStringBody fuel acc (cs.flatMap escapeChar ++ '"' :: rest) =
      .ok (String.ofList (acc.reverse ++ cs), rest) := by
  induction cs generalizing fuel acc with
  | nil =>
    obtain ⟨fuel, rfl⟩ := Nat.exists_eq_succ_of_ne_zero (Nat.ne_of_gt hfuel)
    rw [List.append_nil]
    rfl
  | cons c cs ih =>
    obtain ⟨fuel, rfl⟩ := Nat.exists_eq_succ_of_ne_zero (Nat.ne_of_gt (Nat.zero_lt_of_lt hfuel))
    rw [List.flatMap_cons, List.append_assoc, readStringBody_escapeChar,
      ih (by rw [List.length_cons] at hfuel; omega), List.reverse_cons, List.append_assoc]
    rfl

/-- Every character is written as something. -/
theorem escapeChar_ne_nil (c : Char) : escapeChar c ≠ [] := by
  unfold escapeChar
  repeat' split
  all_goals simp

/-- A text becomes no shorter by its escapes, so it gives fuel enough for reading it. -/
theorem length_le_escaped (cs : List Char) : cs.length ≤ (cs.flatMap escapeChar).length := by
  induction cs with
  | nil => exact Nat.le_refl 0
  | cons c cs ih =>
    have hc := List.length_pos_iff.mpr (escapeChar_ne_nil c)
    rw [List.flatMap_cons, List.length_append, List.length_cons]
    omega

/-- The characters of a quoted text. -/
theorem toList_quote (s : String) :
    (quote s).toList = '"' :: (s.toList.flatMap escapeChar ++ ['"']) := by
  rw [quote, String.toList_ofList]
  rfl

/-- **A quoted text is read back.** The reader has as much fuel as there are characters, and each
escape uses up one step. -/
theorem readString_quote (s : String) (rest : List Char) :
    readString (s.toList.flatMap escapeChar ++ '"' :: rest) = .ok (s, rest) := by
  have hfuel : s.toList.length < (s.toList.flatMap escapeChar ++ '"' :: rest).length := by
    have h := length_le_escaped s.toList
    rw [List.length_append, List.length_cons]
    omega
  rw [readString, readStringBody_escaped hfuel, List.reverse_nil, List.nil_append,
    String.ofList_toList]

/-! ## Numbers -/

/-- What may follow a number: nothing that a number could go on with. -/
def Delimits (rest : List Char) : Prop :=
  ∀ c ∈ rest.head?, c.isDigit = false ∧ c ≠ '.' ∧ c ≠ 'e' ∧ c ≠ 'E'

/-- A number is read back from its written form, whatever may stand behind it. -/
structure Number.Readable (floats : FloatReader) (n : Number) : Prop where
  starts : ∃ c cs, n.render.toList = c :: cs ∧ (c = '-' ∨ c.isDigit = true)
  read : ∀ rest, Delimits rest → readNumber floats (n.render.toList ++ rest) = .ok (n, rest)

/-- What is written of a floating point number is read as that number. -/
def FloatReader.ReadsBack (floats : FloatReader) (x : Binary64) : Prop :=
  readNumber floats (Number.float x).render.toList = .ok (.float x, [])

instance (floats : FloatReader) (x : Binary64) : Decidable (floats.ReadsBack x) :=
  inferInstanceAs
    (Decidable (readNumber floats (Number.float x).render.toList = .ok (.float x, [])))

section Numbers

variable {floats : FloatReader}

/-- What may follow a value does not begin like the rest of a number. -/
theorem Delimits.head?_ne {rest : List Char} (h : Delimits rest) {c : Char}
    (hc : c = '.' ∨ c = 'e' ∨ c = 'E') : rest.head? ≠ some c := by
  intro heq
  obtain ⟨_, hpoint, hsmall, hlarge⟩ := h c heq
  rcases hc with rfl | rfl | rfl
  · exact hpoint rfl
  · exact hsmall rfl
  · exact hlarge rfl

/-- Where a value ends, no fraction begins. -/
theorem readFraction_of_delimits {rest : List Char} (h : Delimits rest) :
    readFraction rest = .ok (([], false), rest) := by
  unfold readFraction
  split
  · exact absurd rfl (h.head?_ne (Or.inl rfl))
  · rfl

/-- Where a value ends, no exponent begins. -/
theorem exponent?_of_delimits {rest : List Char} (h : Delimits rest) :
    Decimal.exponent? rest = some (0, rest) := by
  cases rest with
  | nil => rfl
  | cons c rest =>
    have hc : ¬ (c = 'e' ∨ c = 'E') := fun hc => h.head?_ne (Or.inr hc) rfl
    rw [Decimal.exponent?.eq_def]
    simp only [if_neg hc]

/-- The digits of a number that fits an unsigned word are read as that number. -/
theorem readMagnitude_digits {n : Nat} (hn : n < UInt64.size) {rest : List Char}
    (h : Delimits rest) :
    readMagnitude floats false (Nat.toDigits 10 n ++ rest) = .ok (.int n, rest) := by
  have hspan : Decimal.spanDigits (Nat.toDigits 10 n ++ rest) = (Nat.toDigits 10 n, rest) :=
    Decimal.spanDigits_append (Decimal.isDigit_toDigits n) fun c hc => (h c hc).1
  -- there are digits, and none of them is a superfluous zero
  have hwell : ¬ ((Nat.toDigits 10 n).isEmpty = true ∨
      (1 < (Nat.toDigits 10 n).length ∧ (Nat.toDigits 10 n).head? = some '0')) := by
    rintro (hempty | ⟨hlong, hzero⟩)
    · exact Nat.toDigits_ne_nil (List.isEmpty_iff.mp hempty)
    · rw [Decimal.head?_toDigits hzero] at hlong
      exact absurd hlong (by decide)
  have hint : Number.ofInteger? floats false (Nat.toDigits 10 n) = some (.int n) := by
    simp only [Number.ofInteger?, Decimal.ofDigits_toDigits, if_neg Bool.false_ne_true]
    exact if_pos hn
  rw [readMagnitude, hspan]
  simp only
  rw [if_neg hwell, readFraction_of_delimits h, ok_bind]
  simp only [exponent?_of_delimits h, hint, Bool.not_false, and_self, if_true]
  rfl

/-- The first digit of a number. -/
theorem exists_toDigits_cons (n : Nat) :
    ∃ d ds, Nat.toDigits 10 n = d :: ds ∧ d.isDigit = true := by
  cases hds : Nat.toDigits 10 n with
  | nil => exact absurd hds Nat.toDigits_ne_nil
  | cons d ds =>
    exact ⟨d, ds, rfl, Decimal.isDigit_toDigits n d (by rw [hds]; exact List.mem_cons_self)⟩

/-- What begins with a digit is not read behind a minus sign. -/
theorem readNumber_of_isDigit {d : Char} (hd : d.isDigit = true) (cs : List Char) :
    readNumber floats (d :: cs) = readMagnitude floats false (d :: cs) := by
  unfold readNumber
  split
  · rename_i heq
    rw [(List.cons.inj heq).1] at hd
    exact absurd hd (by decide)
  · rfl

/-- **A natural number that fits an unsigned word is readable**, however other numbers are
rounded. -/
theorem Number.readable_nat {n : Nat} (h : n < UInt64.size) : Readable floats (.int n) := by
  have htext : (Number.int n).render.toList = Nat.toDigits 10 n := Decimal.toList_toString n
  obtain ⟨d, ds, hds, hd⟩ := exists_toDigits_cons n
  refine ⟨⟨d, ds, htext.trans hds, Or.inr hd⟩, fun rest hrest => ?_⟩
  have hread : readNumber floats (Nat.toDigits 10 n ++ rest) =
      readMagnitude floats false (Nat.toDigits 10 n ++ rest) := by
    rw [hds, List.cons_append, readNumber_of_isDigit hd]
  rw [htext, hread, readMagnitude_digits h hrest]

end Numbers

/-! ## Values -/

namespace Value

mutual

/-- All numbers of a document are readable. -/
def Readable (floats : FloatReader) : Value → Prop
  | .number n => n.Readable floats
  | .array items => ReadableItems floats items
  | .object members => ReadableMembers floats members
  | _ => True

def ReadableItems (floats : FloatReader) : List Value → Prop
  | [] => True
  | v :: rest => v.Readable floats ∧ ReadableItems floats rest

def ReadableMembers (floats : FloatReader) : List (String × Value) → Prop
  | [] => True
  | (_, v) :: rest => v.Readable floats ∧ ReadableMembers floats rest

end

end Value

variable {floats : FloatReader}

/-- What no value begins with: a blank, or the end of an array or an object. -/
def Begins (cs : List Char) : Prop :=
  ∃ c rest, cs = c :: rest ∧ isBlank c = false ∧ c ≠ ']' ∧ c ≠ '\x7d'

/-- What a text begins with does not depend on what stands behind it. -/
theorem Begins.append {cs : List Char} (h : Begins cs) (rest : List Char) :
    Begins (cs ++ rest) := by
  obtain ⟨c, cs', rfl, hc⟩ := h
  exact ⟨c, cs' ++ rest, rfl, hc⟩

/-- In front of a value there is nothing to skip. -/
theorem Begins.skipBlanks {cs : List Char} (h : Begins cs) : skipBlanks cs = cs := by
  obtain ⟨c, rest, rfl, hc, _⟩ := h
  rw [Json.skipBlanks, List.dropWhile_cons_of_neg (by simp [hc])]

theorem toList_newline (depth : Nat) :
    (Value.newline depth).toList = '\n' :: List.replicate (2 * depth) ' ' := by
  rw [Value.newline, String.toList_append, String.toList_ofList (l := List.replicate _ _)]
  rfl

/-- The line feed and the indentation in front of a line are blanks, which are skipped. -/
theorem skipBlanks_newline (depth : Nat) (cs : List Char) :
    skipBlanks ((Value.newline depth).toList ++ cs) = skipBlanks cs := by
  have hblank : ∀ c ∈ (Value.newline depth).toList, isBlank c = true := by
    intro c hc
    rw [toList_newline, List.mem_cons] at hc
    rcases hc with rfl | hc
    · rfl
    · rw [(List.mem_replicate.mp hc).2]
      rfl
  exact List.dropWhile_append_of_pos hblank

/-- What a number begins with is no other sign. -/
theorem ne_of_startsNumber {c d : Char} (hc : c = '-' ∨ c.isDigit = true) (hd : d ≠ '-')
    (hdigit : d.isDigit = false) :
    c ≠ d := by
  rintro rfl
  rcases hc with hc | hc
  · exact hd hc
  · rw [hc] at hdigit
    cases hdigit

/-- A number begins with a sign or a digit. -/
theorem Number.Readable.begins {n : Number} (h : n.Readable floats) : Begins n.render.toList := by
  obtain ⟨c, cs, hcs, hc⟩ := h.starts
  have hother : ∀ d : Char, d ≠ '-' → d.isDigit = false → c ≠ d := fun _ => ne_of_startsNumber hc
  refine ⟨c, cs, hcs, ?_, hother ']' (by decide) (by decide), hother '\x7d' (by decide) (by decide)⟩
  simp [isBlank, hother ' ' (by decide) (by decide), hother '\n' (by decide) (by decide),
    hother '\t' (by decide) (by decide), hother '\r' (by decide) (by decide)]

/-- What a written array or object begins with. -/
theorem begins_block (bracket : Char)
    (hb : isBlank bracket = false ∧ bracket ≠ ']' ∧ bracket ≠ '\x7d') (close : String) (depth : Nat)
    (items : List String) :
    Begins (Value.block (String.singleton bracket) close depth items).toList := by
  unfold Value.block
  split
  · exact ⟨bracket, close.toList, by simp, hb⟩
  · exact ⟨bracket, _, by simp only [String.toList_append, String.toList_singleton,
      List.append_assoc, List.singleton_append]; rfl, hb⟩

/-- A document that is written begins with a character that a value may begin with. The cases are
those of the document. -/
theorem begins_prettyAt {v : Value} (h : v.Readable floats) (depth : Nat) :
    Begins (v.prettyAt depth).toList := by
  cases v with
  | null => exact ⟨'n', ['u', 'l', 'l'], by rw [Value.prettyAt]; rfl, by decide⟩
  | bool b =>
    cases b with
    | true => exact ⟨'t', ['r', 'u', 'e'], by rw [Value.prettyAt]; rfl, by decide⟩
    | false => exact ⟨'f', ['a', 'l', 's', 'e'], by rw [Value.prettyAt]; rfl, by decide⟩
  | number n => exact Number.Readable.begins h
  | string s => exact ⟨'"', _, toList_quote s, by decide⟩
  | array items => exact begins_block '[' (by decide) "]" depth _
  | object members => exact begins_block '\x7b' (by decide) "\x7d" depth _

/-! ## Items and members

The items of an array stand one below the other, each with a comma behind it except the last. They
are read one after the other if each of them is, whatever follows it. -/

/-- A number ends in front of what belongs to no number. -/
theorem delimits_of_head {c : Char} (hc : c.isDigit = false ∧ c ≠ '.' ∧ c ≠ 'e' ∧ c ≠ 'E')
    (cs : List Char) : Delimits (c :: cs) := by
  intro d hd
  rw [List.head?_cons, Option.mem_some_iff] at hd
  exact hd ▸ hc

/-- It ends at the end of its line. -/
theorem delimits_newline (depth : Nat) (cs : List Char) :
    Delimits ((Value.newline depth).toList ++ cs) := by
  rw [toList_newline, List.cons_append]
  exact delimits_of_head (by decide) _

theorem skipBlanks_cons {c : Char} (h : isBlank c = false) (cs : List Char) :
    skipBlanks (c :: cs) = c :: cs := by
  rw [skipBlanks, List.dropWhile_cons_of_neg (by simp [h])]

/-- What stands between the lines of a block. -/
def separator (depth : Nat) : List Char := ',' :: (Value.newline depth).toList

/-- The characters of a block that is not empty. -/
theorem toList_block_cons (open_ close : String) (depth : Nat) (item : String)
    (items : List String) :
    (Value.block open_ close depth (item :: items)).toList =
      open_.toList ++ ((Value.newline (depth + 1)).toList ++
        ((separator (depth + 1)).intercalate ((item :: items).map String.toList) ++
          ((Value.newline depth).toList ++ close.toList))) := by
  rw [Value.block, if_neg (by simp)]
  simp only [String.toList_append, String.toList_intercalate, List.append_assoc]
  rfl

/-- The lines of a block begin as the first of them does. -/
theorem begins_intercalate {sep line : List Char} (h : Begins line) (lines : List (List Char)) :
    Begins (sep.intercalate (line :: lines)) := by
  cases lines with
  | nil => rw [List.intercalate_singleton]; exact h
  | cons line' lines =>
    rw [List.intercalate_cons_cons, List.append_assoc]
    exact h.append _

section Block

variable {item : Reader Value} {fuel : Nat} {cs mid rest rest' : List Char} {v : Value}

/-- An item that the bracket follows is the last one of its array. -/
theorem readItems_last (hv : item (skipBlanks cs) = .ok (v, mid))
    (hend : skipBlanks mid = ']' :: rest) : readItems item (fuel + 1) cs = .ok ([v], rest) := by
  rw [readItems, hv, ok_bind]
  simp only [hend]
  rfl

/-- An item with a comma and further items behind it. -/
theorem readItems_more {vs : List Value} (hv : item (skipBlanks cs) = .ok (v, mid))
    (hcomma : skipBlanks mid = ',' :: rest) (hvs : readItems item fuel rest = .ok (vs, rest')) :
    readItems item (fuel + 1) cs = .ok (v :: vs, rest') := by
  rw [readItems, hv, ok_bind]
  simp only [hcomma, hvs]
  rfl

/-- The items of an array are read from their lines up to the closing bracket, if each of them is
read back on its own in front of whatever may follow a value. The induction is on the items. -/
theorem readItems_lines (depth outer : Nat) {items : List Value} (hne : items ≠ [])
    (hitem : ∀ v ∈ items, ∀ rest, Delimits rest →
      item ((v.prettyAt depth).toList ++ rest) = .ok (v, rest))
    (hbegins : ∀ v ∈ items, Begins (v.prettyAt depth).toList) (hfuel : items.length ≤ fuel)
    (hcs : skipBlanks cs =
      (separator depth).intercalate ((Value.prettyItems depth items).map String.toList) ++
        ((Value.newline outer).toList ++ ']' :: rest)) :
    readItems item fuel cs = .ok (items, rest) := by
  induction items generalizing fuel cs with
  | nil => exact absurd rfl hne
  | cons v items ih =>
    rw [List.forall_mem_cons] at hitem hbegins
    obtain ⟨fuel, rfl⟩ := Nat.exists_eq_add_of_lt hfuel
    cases items with
    | nil =>
      rw [Value.prettyItems, Value.prettyItems, List.map_singleton,
        List.intercalate_singleton] at hcs
      refine readItems_last (hcs ▸ hitem.1 _ (delimits_newline outer _)) ?_
      rw [skipBlanks_newline, skipBlanks_cons (by decide)]
    | cons w items =>
      rw [Value.prettyItems, Value.prettyItems, List.map_cons, List.map_cons,
        List.intercalate_cons_cons, List.append_assoc, List.append_assoc, ← List.map_cons,
        ← Value.prettyItems] at hcs
      refine readItems_more (hcs ▸ hitem.1 _ (delimits_of_head (by decide) _))
        (skipBlanks_cons (by decide) _)
          (ih (by simp) hitem.2 hbegins.2 (Nat.le_of_succ_le_succ hfuel) ?_)
      -- behind the comma only the line break is skipped
      refine (skipBlanks_newline depth _).trans (Begins.skipBlanks (Begins.append ?_ _))
      rw [Value.prettyItems, List.map_cons]
      exact begins_intercalate (hbegins.2 w List.mem_cons_self) _

/-- The last member of an object, with the closing bracket behind it. -/
theorem readMembers_last {name : String} {ncs after value : List Char}
    (hquote : skipBlanks cs = '"' :: ncs) (hname : readString ncs = .ok (name, after))
    (hcolon : skipBlanks after = ':' :: value) (hv : item (skipBlanks value) = .ok (v, mid))
    (hend : skipBlanks mid = '\x7d' :: rest) :
    readMembers item (fuel + 1) cs = .ok ([(name, v)], rest) := by
  rw [readMembers]
  simp only [hquote, hname, ok_bind, hcolon, hv, hend]
  rfl

/-- A member with a comma and further members behind it. -/
theorem readMembers_more {name : String} {ncs after value : List Char}
    {ms : List (String × Value)}
    (hquote : skipBlanks cs = '"' :: ncs) (hname : readString ncs = .ok (name, after))
    (hcolon : skipBlanks after = ':' :: value) (hv : item (skipBlanks value) = .ok (v, mid))
    (hcomma : skipBlanks mid = ',' :: rest) (hms : readMembers item fuel rest = .ok (ms, rest')) :
    readMembers item (fuel + 1) cs = .ok ((name, v) :: ms, rest') := by
  rw [readMembers]
  simp only [hquote, hname, ok_bind, hcolon, hv, hcomma, hms]
  rfl

/-- The characters of a member: its name, a colon and its value. -/
theorem toList_member (name value : String) (rest : List Char) :
    (quote name ++ ": " ++ value).toList ++ rest =
      '"' :: (name.toList.flatMap escapeChar ++
        '"' :: ':' :: ' ' :: (value.toList ++ rest)) := by
  rw [String.toList_append, String.toList_append, toList_quote]
  simp

/-- A member begins with the quote of its name. -/
theorem begins_member (name value : String) : Begins (quote name ++ ": " ++ value).toList := by
  have hquote : Begins (quote name).toList := ⟨'"', _, toList_quote name, by decide⟩
  rw [String.toList_append, String.toList_append, List.append_assoc]
  exact hquote.append _

/-- The members of an object are read from their lines up to the closing bracket, if each of their
values is read back on its own. The induction is on the members. -/
theorem readMembers_lines (depth outer : Nat) {members : List (String × Value)}
    (hne : members ≠ []) (hitem : ∀ m ∈ members, ∀ rest, Delimits rest →
      item ((m.2.prettyAt depth).toList ++ rest) = .ok (m.2, rest))
    (hbegins : ∀ m ∈ members, Begins (m.2.prettyAt depth).toList) (hfuel : members.length ≤ fuel)
    (hcs : skipBlanks cs =
      (separator depth).intercalate ((Value.prettyMembers depth members).map String.toList) ++
        ((Value.newline outer).toList ++ '\x7d' :: rest)) :
    readMembers item fuel cs = .ok (members, rest) := by
  induction members generalizing fuel cs with
  | nil => exact absurd rfl hne
  | cons m members ih =>
    obtain ⟨name, v⟩ := m
    rw [List.forall_mem_cons] at hitem hbegins
    obtain ⟨fuel, rfl⟩ := Nat.exists_eq_add_of_lt hfuel
    -- the space behind the colon is skipped, and the value is read
    have hvalue : ∀ rest', Delimits rest' →
        item (skipBlanks (' ' :: ((v.prettyAt depth).toList ++ rest'))) = .ok (v, rest') := by
      intro rest' hrest'
      have hskip : skipBlanks (' ' :: ((v.prettyAt depth).toList ++ rest')) =
          (v.prettyAt depth).toList ++ rest' := (hbegins.1.append rest').skipBlanks
      rw [hskip]
      exact hitem.1 rest' hrest'
    cases members with
    | nil =>
      rw [Value.prettyMembers, Value.prettyMembers, List.map_singleton, List.intercalate_singleton,
        toList_member] at hcs
      refine readMembers_last hcs (readString_quote name _) (skipBlanks_cons (by decide) _)
        (hvalue _ (delimits_newline outer _)) ?_
      rw [skipBlanks_newline, skipBlanks_cons (by decide)]
    | cons m' members =>
      rw [Value.prettyMembers, Value.prettyMembers, List.map_cons, List.map_cons,
        List.intercalate_cons_cons, List.append_assoc, List.append_assoc, toList_member,
        ← List.map_cons, ← Value.prettyMembers] at hcs
      refine readMembers_more hcs (readString_quote name _) (skipBlanks_cons (by decide) _)
        (hvalue _ (delimits_of_head (by decide) _)) (skipBlanks_cons (by decide) _)
        (ih (by simp) hitem.2 hbegins.2 (Nat.le_of_succ_le_succ hfuel) ?_)
      refine (skipBlanks_newline depth _).trans (Begins.skipBlanks (Begins.append ?_ _))
      rw [Value.prettyMembers, List.map_cons]
      exact begins_intercalate (begins_member m'.1 _) _

end Block

/-! ## Values -/

/-- What begins with a quote is read as a text. -/
theorem readValue_string (k : Nat) (cs : List Char) :
    readValue floats k ('"' :: cs) = (readString cs).map fun p => (.string p.1, p.2) := by
  unfold readValue
  rfl

/-- A value that begins with a sign or a digit is read as a number, and as nothing else. -/
theorem readValue_number (k : Nat) {c : Char} (hc : c = '-' ∨ c.isDigit = true) (cs : List Char) :
    readValue floats k (c :: cs) =
      (readNumber floats (c :: cs)).map fun p => (.number p.1, p.2) := by
  -- nothing else begins with a minus sign or a digit
  have hother : ∀ d : Char, d ≠ '-' → d.isDigit = false → c ≠ d := fun _ => ne_of_startsNumber hc
  have hquote : c ≠ '"' := hother _ (by decide) (by decide)
  have hopen : c ≠ '[' := hother _ (by decide) (by decide)
  have hbrace : c ≠ '\x7b' := hother _ (by decide) (by decide)
  have hn : c ≠ 'n' := hother _ (by decide) (by decide)
  have ht : c ≠ 't' := hother _ (by decide) (by decide)
  have hf : c ≠ 'f' := hother _ (by decide) (by decide)
  have hnumber : (c = '-' || c.isDigit) = true := by
    rcases hc with rfl | hc
    · rfl
    · rw [hc, Bool.or_true]
  unfold readValue
  split
  · simp_all
  · simp_all
  · simp_all
  · simp_all
  · simp_all
  · simp_all
  · simp_all
  · rename_i heq
    obtain ⟨rfl, rfl⟩ := List.cons.inj heq
    rw [if_pos hnumber]

/-- A value that begins with an opening bracket and has something in it is read item by item. -/
theorem readValue_array (k : Nat) {cs : List Char} (h : Begins (skipBlanks cs)) :
    readValue floats (k + 1) ('[' :: cs) =
      (readItems (readValue floats k) (skipBlanks cs).length (skipBlanks cs)).map
        fun p => (.array p.1, p.2) := by
  obtain ⟨c, rest, hcs, _, hend, _⟩ := h
  rw [readValue.eq_def]
  simp only [hcs]
  split
  · rename_i heq
    exact absurd (List.cons.inj heq).1 hend
  · rfl

/-- A value that begins with an opening brace and has something in it is read member by member. -/
theorem readValue_object (k : Nat) {cs : List Char} (h : Begins (skipBlanks cs)) :
    readValue floats (k + 1) ('\x7b' :: cs) =
      (readMembers (readValue floats k) (skipBlanks cs).length (skipBlanks cs)).map
        fun p => (.object p.1, p.2) := by
  obtain ⟨c, rest, hcs, _, _, hend⟩ := h
  rw [readValue.eq_def]
  simp only [hcs]
  split
  · rename_i heq
    exact absurd (List.cons.inj heq).1 hend
  · rfl

namespace Value

/-- What is true of scalars, and of arrays and objects whenever it is true of what stands in them,
is true of all values. -/
@[elab_as_elim]
theorem nestedInduction {motive : Value → Prop} (null : motive .null) (bool : ∀ b, motive (.bool b))
    (number : ∀ n, motive (.number n)) (string : ∀ s, motive (.string s))
    (array : ∀ items, (∀ v ∈ items, motive v) → motive (.array items))
    (object : ∀ members, (∀ m ∈ members, motive m.2) → motive (.object members)) (v : Value) :
      motive v := by
  match v with
  | .null => exact null
  | .bool b => exact bool b
  | .number n => exact number n
  | .string s => exact string s
  | .array items =>
    refine array items fun w hw => ?_
    have hsize : sizeOf w < sizeOf items := List.sizeOf_lt_of_mem hw
    exact nestedInduction null bool number string array object w
  | .object members =>
    refine object members fun m hm => ?_
    have hsize : sizeOf m < sizeOf members := List.sizeOf_lt_of_mem hm
    have hvalue : sizeOf m.2 < sizeOf m := by
      cases m
      simp
    exact nestedInduction null bool number string array object m.2
  termination_by sizeOf v
  decreasing_by
    · simp only [Value.array.sizeOf_spec]
      omega
    · simp only [Value.object.sizeOf_spec]
      omega

/-- The items of an array are readable if each of them is. -/
theorem readableItems_iff {items : List Value} : ReadableItems floats items ↔
    ∀ v ∈ items, v.Readable floats := by
  induction items with
  | nil => simp [ReadableItems]
  | cons v items ih => rw [ReadableItems, ih, List.forall_mem_cons]

/-- The members of an object are readable if each of them is. -/
theorem readableMembers_iff {members : List (String × Value)} :
    ReadableMembers floats members ↔ ∀ m ∈ members, m.2.Readable floats := by
  induction members with
  | nil => simp [ReadableMembers]
  | cons m members ih => rw [ReadableMembers, ih, List.forall_mem_cons]

/-- An item is no deeper than its array allows for. -/
theorem depth_le_depthItems {items : List Value} {v : Value} (h : v ∈ items) :
    v.depth ≤ depthItems items := by
  induction items with
  | nil => simp at h
  | cons w items ih =>
    rw [depthItems]
    rcases List.mem_cons.mp h with rfl | h
    · exact Nat.le_max_left ..
    · exact Nat.le_trans (ih h) (Nat.le_max_right ..)

/-- The value of a member is no deeper than its object allows for. -/
theorem depth_le_depthMembers {members : List (String × Value)} {m : String × Value}
    (h : m ∈ members) : m.2.depth ≤ depthMembers members := by
  induction members with
  | nil => simp at h
  | cons m' members ih =>
    rw [depthMembers]
    rcases List.mem_cons.mp h with rfl | h
    · exact Nat.le_max_left ..
    · exact Nat.le_trans (ih h) (Nat.le_max_right ..)

/-- Every item is written once. -/
theorem length_prettyItems (depth : Nat) (items : List Value) :
    (prettyItems depth items).length = items.length := by
  induction items with
  | nil => rw [prettyItems]; rfl
  | cons v items ih => rw [prettyItems, List.length_cons, List.length_cons, ih]

/-- Every member is written once. -/
theorem length_prettyMembers (depth : Nat) (members : List (String × Value)) :
    (prettyMembers depth members).length = members.length := by
  induction members with
  | nil => rw [prettyMembers]; rfl
  | cons m members ih => rw [prettyMembers, List.length_cons, List.length_cons, ih]

/-- Lines are at most one more than the characters that they are joined to, which is enough fuel for
reading them. -/
theorem length_le_intercalate (sep : List Char) (hsep : sep ≠ []) (lines : List (List Char)) :
    lines.length ≤ (sep.intercalate lines).length + 1 := by
  induction lines with
  | nil => simp
  | cons line lines ih =>
    cases lines with
    | nil => simp
    | cons line' lines =>
      have hpos := List.length_pos_iff.mpr hsep
      rw [List.intercalate_cons_cons, List.length_append, List.length_append, List.length_cons]
      omega

end Value

/-- What is written behind an opening bracket, up to and with the closing one, and what follows. -/
def inside (depth : Nat) (lines : List String) (close : Char) (rest : List Char) : List Char :=
  (Value.newline (depth + 1)).toList ++
    ((separator (depth + 1)).intercalate (lines.map String.toList) ++
      ((Value.newline depth).toList ++ close :: rest))

/-- A block with lines in it is an opening bracket, the lines, and the closing bracket on a line of
its own. -/
theorem toList_block_append (depth : Nat) (line : String) (lines : List String)
    (bracket close : Char) (rest : List Char) :
    (Value.block (String.singleton bracket)
      (String.singleton close) depth (line :: lines)).toList ++
      rest = bracket :: inside depth (line :: lines) close rest := by
  rw [toList_block_cons, String.toList_singleton, String.toList_singleton]
  simp only [inside, List.cons_append, List.append_assoc, List.nil_append]

/-- Behind an opening bracket, blanks are skipped up to the first line. -/
theorem skipBlanks_inside (depth : Nat) {line : String} (h : Begins line.toList)
    (lines : List String) (close : Char) (rest : List Char) :
    skipBlanks (inside depth (line :: lines) close rest) =
      (separator (depth + 1)).intercalate ((line :: lines).map String.toList) ++
        ((Value.newline depth).toList ++ close :: rest) := by
  rw [inside, skipBlanks_newline, List.map_cons]
  exact ((begins_intercalate h _).append _).skipBlanks

theorem begins_inside (depth : Nat) {line : String} (h : Begins line.toList) (lines : List String)
    (close : Char) (rest : List Char) :
    Begins (skipBlanks (inside depth (line :: lines) close rest)) := by
  rw [skipBlanks_inside depth h, List.map_cons]
  exact (begins_intercalate h _).append _

/-- There are at least as many characters as lines, so the reader has fuel for each. -/
theorem length_inside (depth : Nat) {line : String} (h : Begins line.toList) (lines : List String)
    (close : Char) (rest : List Char) :
    (line :: lines).length ≤ (skipBlanks (inside depth (line :: lines) close rest)).length := by
  have hlength := Value.length_le_intercalate (separator (depth + 1)) (by simp [separator])
    ((line :: lines).map String.toList)
  rw [List.length_map] at hlength
  rw [skipBlanks_inside depth h, List.length_append, List.length_append]
  have hclose : 0 < (close :: rest).length := Nat.succ_pos _
  omega

/-- An array without items is read back, with nothing between its brackets. -/
theorem readValue_emptyArray (k depth : Nat) (rest : List Char) :
    readValue floats (k + 1) (((Value.array []).prettyAt depth).toList ++ rest) =
      .ok (.array [], rest) := by
  have htext : ((Value.array []).prettyAt depth).toList = ['[', ']'] := by
    rw [Value.prettyAt, Value.prettyItems]
    simp [Value.block]
  rw [htext]
  unfold readValue
  rfl

/-- An object without members is read back, with nothing between its braces. -/
theorem readValue_emptyObject (k depth : Nat) (rest : List Char) :
    readValue floats (k + 1) (((Value.object []).prettyAt depth).toList ++ rest) =
      .ok (.object [], rest) := by
  have htext : ((Value.object []).prettyAt depth).toList = ['\x7b', '\x7d'] := by
    rw [Value.prettyAt, Value.prettyMembers]
    simp [Value.block]
  rw [htext]
  unfold readValue
  rfl

/-- An array is read back if its items are. -/
theorem readValue_items {k depth : Nat} {v : Value} {items : List Value}
    (hitem : ∀ w ∈ v :: items, ∀ rest, Delimits rest →
      readValue floats k ((w.prettyAt (depth + 1)).toList ++ rest) = .ok (w, rest))
    (hbegins : ∀ w ∈ v :: items, Begins (w.prettyAt (depth + 1)).toList) (rest : List Char) :
    readValue floats (k + 1) (((Value.array (v :: items)).prettyAt depth).toList ++ rest) =
      .ok (.array (v :: items), rest) := by
  have hfirst : Begins (v.prettyAt (depth + 1)).toList := hbegins v List.mem_cons_self
  rw [Value.prettyAt, Value.prettyItems]
  refine (congrArg (readValue floats _) (toList_block_append depth _ _ '[' ']' rest)).trans ?_
  rw [readValue_array _ (begins_inside depth hfirst _ _ _),
    readItems_lines (depth + 1) depth (List.cons_ne_nil v items) hitem hbegins]
  · rfl
  · -- each item has a line, and so a character to spend
    have hlength := length_inside depth hfirst (Value.prettyItems (depth + 1) items) ']' rest
    rwa [List.length_cons, Value.length_prettyItems] at hlength
  · rw [(begins_inside depth hfirst _ _ _).skipBlanks, skipBlanks_inside depth hfirst,
      Value.prettyItems]

/-- An object is read back if the values of its members are. -/
theorem readValue_members {k depth : Nat} {name : String} {v : Value}
    {members : List (String × Value)} (hitem : ∀ m ∈ (name, v) :: members, ∀ rest, Delimits rest →
      readValue floats k ((m.2.prettyAt (depth + 1)).toList ++ rest) = .ok (m.2, rest))
    (hbegins : ∀ m ∈ (name, v) :: members, Begins (m.2.prettyAt (depth + 1)).toList)
    (rest : List Char) :
    readValue floats (k + 1)
      (((Value.object ((name, v) :: members)).prettyAt depth).toList ++ rest) =
      .ok (.object ((name, v) :: members), rest) := by
  have hfirst : Begins (quote name ++ ": " ++ v.prettyAt (depth + 1)).toList := begins_member _ _
  rw [Value.prettyAt, Value.prettyMembers]
  refine (congrArg (readValue floats _) (toList_block_append depth _ _ '\x7b' '\x7d' rest)).trans ?_
  rw [readValue_object _ (begins_inside depth hfirst _ _ _),
    readMembers_lines (depth + 1) depth (List.cons_ne_nil (name, v) members) hitem hbegins]
  · rfl
  · have hlength := length_inside depth hfirst (Value.prettyMembers (depth + 1) members) '\x7d' rest
    rwa [List.length_cons, Value.length_prettyMembers] at hlength
  · rw [(begins_inside depth hfirst _ _ _).skipBlanks, skipBlanks_inside depth hfirst,
      Value.prettyMembers]

/-- **A value that is written over several lines is read back**, with what follows it left over. The
induction is on the document, with the lists in it; blanks and line feeds between the parts are
skipped. -/
theorem readValue_pretty (v : Value) (hread : v.Readable floats) {k : Nat} (hdepth : v.depth ≤ k)
    (depth : Nat) {rest : List Char} (hrest : Delimits rest) :
    readValue floats k ((v.prettyAt depth).toList ++ rest) = .ok (v, rest) := by
  induction v using Value.nestedInduction generalizing k depth rest with
  | null =>
    rw [Value.prettyAt]
    unfold readValue
    rfl
  | bool b =>
    cases b <;>
    · rw [Value.prettyAt]
      unfold readValue
      rfl
  | number n =>
    obtain ⟨c, cs, hcs, hc⟩ := hread.starts
    have hn := hread.read rest hrest
    rw [hcs] at hn
    rw [Value.prettyAt, hcs, List.cons_append, readValue_number k hc, ← List.cons_append, hn]
    rfl
  | string s =>
    rw [Value.prettyAt, toList_quote, List.cons_append, List.append_assoc, readValue_string,
      List.singleton_append, readString_quote]
    rfl
  | array items ih =>
    -- the bracket takes one of the levels that the reader may go down
    obtain ⟨k, rfl⟩ := Nat.exists_eq_add_of_le' (Nat.le_trans (Nat.succ_pos _) hdepth)
    have hreads : ∀ w ∈ items, w.Readable floats := Value.readableItems_iff.mp hread
    have hlevel : ∀ w ∈ items, w.depth ≤ k := fun w hw =>
      Nat.le_trans (Value.depth_le_depthItems hw) (Nat.le_of_succ_le_succ hdepth)
    cases items with
    | nil => exact readValue_emptyArray k depth rest
    | cons v items =>
      exact readValue_items (fun w hw rest' hrest' => ih w hw (hreads w hw) (hlevel w hw) _ hrest')
        (fun w hw => begins_prettyAt (hreads w hw) _) rest
  | object members ih =>
    obtain ⟨k, rfl⟩ := Nat.exists_eq_add_of_le' (Nat.le_trans (Nat.succ_pos _) hdepth)
    have hreads : ∀ m ∈ members, m.2.Readable floats := Value.readableMembers_iff.mp hread
    have hlevel : ∀ m ∈ members, m.2.depth ≤ k := fun m hm =>
      Nat.le_trans (Value.depth_le_depthMembers hm) (Nat.le_of_succ_le_succ hdepth)
    cases members with
    | nil => exact readValue_emptyObject k depth rest
    | cons m members =>
      exact readValue_members
        (fun m hm rest' hrest' => ih m hm (hreads m hm) (hlevel m hm) _ hrest')
        (fun m hm => begins_prettyAt (hreads m hm) _) rest

/-- **The document of a value is read back as the value.** Nothing follows it, and it is no deeper
than the reader goes. -/
theorem parse_pretty {v : Value} (hread : v.Readable floats) (hdepth : v.depth ≤ maxDepth) :
    parseUsing floats maxDepth v.pretty = .ok v := by
  have hend : Delimits [] := fun c hc => by simp at hc
  have hvalue := readValue_pretty v hread hdepth 0 hend
  rw [List.append_nil] at hvalue
  rw [parseUsing, Value.pretty, (begins_prettyAt hread 0).skipBlanks, hvalue]
  rfl

end CoChange.Json
