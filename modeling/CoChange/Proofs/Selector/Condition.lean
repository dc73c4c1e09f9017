import CoChange.Proofs.Selector.Grammar
import CoChange.Proofs.Text

/-!
# Conditions are read as they are written

The parts of a condition one after the other, each read where it is written and only there:

* `takePath?_append`, `takePath?_eq_some`: the path, which is as long as possible;
* `operatorAndValue?_eq_some`: the operator and the value, which are all that is left.

**`condition_eq_ok`** puts them together. The path runs into the operator where the word `has`
follows without a gap. Then the name ends in `has`, and the only one that leads anywhere without it
is the path to the roles (`takeCondition?_roleshas`, `eq_of_withoutHas?`).
-/

namespace CoChange

open Text

namespace QueryParser

/-! ## Names and paths -/

/-- A name: what a key may start with, and characters that a name may go on with. -/
def IsName (isRest : Char → Bool) (cs : List Char) : Prop :=
  ∃ c rest, cs = c :: rest ∧ isNameStart c = true ∧ ∀ d ∈ rest, isRest d = true

variable {isRest : Char → Bool} {cs name rest value gap gap' : List Char}

/-- What the parser begins a name with are the characters that the grammar allows there. -/
theorem isNameStart_iff {c : Char} : isNameStart c = true ↔ KeyStart c := by
  have halpha : c.isAlpha = true ↔ ('A' ≤ c ∧ c ≤ 'Z') ∨ 'a' ≤ c ∧ c ≤ 'z' := by
    change (decide ('A' ≤ c ∧ c ≤ 'Z') || (decide ('a' ≤ c) && decide (c ≤ 'z'))) = true ↔ _
    simp only [Bool.or_eq_true, Bool.and_eq_true, decide_eq_true_eq]
  rw [isNameStart, Bool.or_eq_true, halpha, decide_eq_true_eq, or_assoc]
  rfl

/-- What the parser goes on with in a name are the characters that the grammar allows there. -/
theorem isKeyRest_iff {c : Char} : isKeyRest c = true ↔ KeyRest c := by
  have hrest : isKeyRest c = (isNameStart c || (c.isDigit || decide (c = '-'))) := by
    show (((c.isAlpha || c.isDigit) || decide (c = '_')) || decide (c = '-')) =
      ((c.isAlpha || decide (c = '_')) || (c.isDigit || decide (c = '-')))
    ac_rfl
  have hdigit : c.isDigit = true ↔ '0' ≤ c ∧ c ≤ '9' := by
    change (decide ('0' ≤ c) && decide (c ≤ '9')) = true ↔ _
    rw [Bool.and_eq_true, decide_eq_true_eq, decide_eq_true_eq]
  rw [hrest, Bool.or_eq_true, Bool.or_eq_true, isNameStart_iff, hdigit, decide_eq_true_eq]
  rfl

theorem isName_iff_isKey : IsName isKeyRest cs ↔ IsKey cs := by
  simp only [IsName, IsKey, isNameStart_iff, isKeyRest_iff]

/-- A name is taken up to where it stops. -/
theorem takeName?_append (hname : IsName isRest name) (hstop : Stops isRest rest) :
    takeName? isRest (name ++ rest) = some (name, rest) := by
  obtain ⟨c, tail, rfl, hc, htail⟩ := hname
  rw [List.cons_append, takeName?, if_pos hc, span_append_stops htail hstop]

/-- The name that is taken is one of the grammar, and with the rest it is what was there. -/
theorem takeName?_eq_some (h : takeName? isRest cs = some (name, rest)) :
    IsName isRest name ∧ cs = name ++ rest := by
  cases cs with
  | nil => exact absurd h (by rw [takeName?]; exact nofun)
  | cons c tail =>
    rw [takeName?] at h
    split at h
    case isTrue hc =>
      rw [List.span_eq_takeWhile_dropWhile] at h
      obtain ⟨rfl, rfl⟩ := Prod.mk.inj (Option.some.inj h)
      exact ⟨⟨c, _, rfl, hc, fun d hd => List.mem_takeWhile_imp hd⟩,
        congrArg (c :: ·) List.takeWhile_append_dropWhile.symm⟩
    case isFalse => exact absurd h nofun

/-- Paths as they can be written. -/
structure RawPath.Valid (p : RawPath) : Prop where
  name : IsName isNameRest p.name
  key : ∀ key ∈ p.key, IsKey key

/-- What a path ends before. -/
def EndsPath (rest : List Char) : Prop := ∀ c ∈ rest.head?, ¬ IsPathChar c

theorem EndsPath.stops_key (h : EndsPath rest) : Stops isKeyRest rest :=
  fun c hc => Bool.eq_false_iff.mpr fun hkey => h c hc (.inl (isKeyRest_iff.mp hkey))

theorem EndsPath.stops_name (h : EndsPath rest) : Stops isNameRest rest :=
  fun c hc => (Bool.or_eq_false_iff.mp (h.stops_key c hc)).1

/-- A path is taken up to what ends a path: no character behind it could go on with its last
name. -/
theorem takePath?_append {p : RawPath} (hp : p.Valid) (hrest : EndsPath rest) :
    takePath? ('.' :: (p.toList ++ rest)) = some (p, rest) := by
  obtain ⟨name, key⟩ := p
  cases key with
  | none =>
    -- no point follows that could begin a key
    have hname : takeName? isNameRest (name ++ rest) = some (name, rest) :=
      takeName?_append hp.name hrest.stops_name
    simp only [takePath?, RawPath.toList, hname, Option.bind_eq_bind, Option.bind_some]
    split
    · exact absurd (.inr rfl) (hrest '.' rfl)
    · rfl
  | some key =>
    have hkey : takeName? isKeyRest (key ++ rest) = some (key, rest) :=
      takeName?_append (isName_iff_isKey.mpr (hp.key key rfl)) hrest.stops_key
    have hname : takeName? isNameRest (name ++ '.' :: (key ++ rest)) =
        some (name, '.' :: (key ++ rest)) :=
      takeName?_append hp.name fun c hc => Option.some.inj hc ▸ rfl
    simp only [takePath?, RawPath.toList, List.append_assoc, List.cons_append, hname,
      Option.bind_eq_bind, Option.bind_some, hkey]
    rfl

/-- What is taken as a path is one of the grammar, and with the rest it is what was there. -/
theorem takePath?_eq_some {p : RawPath} (h : takePath? cs = some (p, rest)) :
    p.Valid ∧ cs = '.' :: (p.toList ++ rest) := by
  unfold takePath? at h
  split at h
  case h_2 => exact absurd h nofun
  case h_1 tail =>
    simp only [Option.bind_eq_bind, Option.bind_eq_some_iff, Prod.exists] at h
    obtain ⟨name, rest', hname, h⟩ := h
    obtain ⟨hvalid, rfl⟩ := takeName?_eq_some hname
    split at h
    case h_1 tail' =>
      -- a point may bring a key, or may belong to what follows
      split at h
      case h_1 key rest'' hkey =>
        obtain ⟨hkeyValid, rfl⟩ := takeName?_eq_some hkey
        obtain ⟨rfl, rfl⟩ := Prod.mk.inj (Option.some.inj h)
        exact ⟨⟨hvalid, fun k hk => Option.some.inj hk ▸ isName_iff_isKey.mp hkeyValid⟩,
          by simp [RawPath.toList]⟩
      case h_2 =>
        obtain ⟨rfl, rfl⟩ := Prod.mk.inj (Option.some.inj h)
        exact ⟨⟨hvalid, nofun⟩, rfl⟩
    case h_2 =>
      obtain ⟨rfl, rfl⟩ := Prod.mk.inj (Option.some.inj h)
      exact ⟨⟨hvalid, nofun⟩, rfl⟩

/-! ## What paths mean -/

/-- The paths that mean something are the four fields of a node by their names, and the properties
with a key. -/
theorem RawPath.resolve_cases {p : RawPath} {path : Path} (h : p.resolve = .ok path) :
    (p = ⟨"type".toList, none⟩ ∧ path = .field .kind) ∨
    (p = ⟨"token".toList, none⟩ ∧ path = .field .token) ∨
      (p = ⟨"id".toList, none⟩ ∧ path = .field .id) ∨ (p = ⟨"roles".toList, none⟩ ∧ path = .roles) ∨
      ∃ key, p = ⟨"props".toList, some key⟩ ∧ path = .field (.prop (String.ofList key)) := by
  unfold RawPath.resolve at h
  split at h
  case isTrue hp => exact .inl ⟨hp, (Except.ok.inj h).symm⟩
  split at h
  case isTrue hp => exact .inr (.inl ⟨hp, (Except.ok.inj h).symm⟩)
  split at h
  case isTrue hp => exact .inr (.inr (.inl ⟨hp, (Except.ok.inj h).symm⟩))
  split at h
  case isTrue hp => exact .inr (.inr (.inr (.inl ⟨hp, (Except.ok.inj h).symm⟩)))
  split at h
  case isFalse => exact absurd h nofun
  case isTrue hname =>
    obtain ⟨name, key⟩ := p
    cases key with
    | none => exact absurd h nofun
    | some key =>
      obtain rfl := show name = "props".toList from hname
      exact .inr (.inr (.inr (.inr ⟨key, rfl, (Except.ok.inj h).symm⟩)))

/-- Only the path of this one name means the roles. -/
theorem RawPath.eq_of_resolve_roles {p : RawPath} (h : p.resolve = .ok .roles) :
    p = ⟨"roles".toList, none⟩ := by
  rcases resolve_cases h with ⟨-, h⟩ | ⟨-, h⟩ | ⟨-, h⟩ | ⟨h, -⟩ | ⟨key, -, h⟩
  · cases h
  · cases h
  · cases h
  · exact h
  · cases h

/-- A path that means a field is a writing of it. -/
theorem RawPath.Valid.written {p : RawPath} {f : Field} (hp : p.Valid)
    (h : p.resolve = .ok (.field f)) :
    f.Written ('.' :: p.toList) := by
  rcases RawPath.resolve_cases h with ⟨rfl, h⟩ | ⟨rfl, h⟩ | ⟨rfl, h⟩ | ⟨rfl, h⟩ | ⟨key, rfl, h⟩
  · cases h
    exact .kind
  · cases h
    exact .token
  · cases h
    exact .id
  · cases h
  · cases h
    have htext : (String.ofList key).toList = key := String.toList_ofList
    have hwritten := Field.Written.prop (htext.symm ▸ hp.key key rfl)
    rwa [htext] at hwritten

/-- The writings of a field are paths that mean it. -/
theorem exists_path_of_written {f : Field} (h : f.Written cs) :
    ∃ p : RawPath, p.Valid ∧ p.resolve = .ok (.field f) ∧ cs = '.' :: p.toList := by
  cases h with
  | kind => exact ⟨⟨"type".toList, none⟩,
      ⟨⟨'t', "ype".toList, rfl, rfl, by decide⟩, nofun⟩, rfl, rfl⟩
  | token => exact ⟨⟨"token".toList, none⟩,
      ⟨⟨'t', "oken".toList, rfl, rfl, by decide⟩, nofun⟩, rfl, rfl⟩
  | id => exact ⟨⟨"id".toList, none⟩, ⟨⟨'i', "d".toList, rfl, rfl, by decide⟩, nofun⟩, rfl, rfl⟩
  | @prop key hkey =>
    refine ⟨⟨"props".toList, some key.toList⟩,
      ⟨⟨'p', "rops".toList, rfl, rfl, by decide⟩, ?_⟩, ?_, rfl⟩
    · exact fun k hk => Option.some.inj hk ▸ hkey
    · simp [RawPath.resolve]

/-! ## Operators and values -/

/-- An operator is taken where its word stands, and the rest is what stands behind it. -/
theorem takeOperator?_eq_some {op : Operator} : takeOperator? cs = some (op, rest) ↔
    cs = op.word ++ rest := by
  constructor
  · intro h
    unfold takeOperator? at h
    split at h
    case h_4 => exact absurd h nofun
    all_goals
      obtain ⟨rfl, rfl⟩ := Prod.mk.inj (Option.some.inj h)
      rfl
  · rintro rfl
    cases op <;> rfl

/-- A gap is trimmed in front of what is no blank. -/
theorem trimLeft_gap (hgap : Blank gap) (hcs : Stops isBlank cs) : trimLeft (gap ++ cs) = cs :=
  dropWhile_append_stops hgap hcs

theorem trimLeft_quote (hgap : Blank gap) (value : List Char) :
    trimLeft (gap ++ quote value) = quote value :=
  trimLeft_gap hgap fun _ hc => Option.some.inj hc ▸ rfl

/-- A value is taken from blanks and a quoted text that ends where the condition ends, without a
quote inside. -/
theorem quotedRest?_eq_some : quotedRest? cs = some value ↔
    ∃ gap, Blank gap ∧ '"' ∉ value ∧ cs = gap ++ quote value := by
  constructor
  · intro h
    unfold quotedRest? at h
    split at h
    case h_2 => exact absurd h nofun
    case h_1 rest hcs =>
      split at h
      case h_2 => exact absurd h nofun
      case h_1 value' hspan =>
        obtain rfl := Option.some.inj h
        obtain ⟨gap, hgap, hsplit⟩ := exists_trimLeft cs
        rw [List.span_eq_takeWhile_dropWhile, Prod.mk.injEq] at hspan
        refine ⟨gap, hgap, fun hmem => ?_, ?_⟩
        · rw [← hspan.1] at hmem
          exact absurd (List.mem_takeWhile_imp hmem) (by decide)
        · -- the first quote stands at the end, so the value has none
          have hrest : rest = value' ++ ['"'] := by
            rw [← hspan.1, ← hspan.2, List.takeWhile_append_dropWhile]
          rw [hsplit, trimLeft, hcs, hrest]
          rfl
  · rintro ⟨gap, hgap, hvalue, rfl⟩
    have hspan : (value ++ ['"']).span (· != '"') = (value, ['"']) :=
      span_append_stops (fun c hc => bne_iff_ne.mpr fun heq => hvalue (heq ▸ hc)) fun c hc =>
        Option.some.inj hc ▸ rfl
    have hgone : (gap ++ quote value).dropWhile isBlank = '"' :: (value ++ ['"']) :=
      trimLeft_quote hgap value
    rw [quotedRest?, hgone]
    simp only [hspan]

/-- No operator begins with a blank. -/
theorem Operator.stops_blank (op : Operator) (rest : List Char) :
    Stops isBlank (op.word ++ rest) := by
  cases op <;> exact fun c hc => Option.some.inj hc ▸ rfl

/-- An operator and a value, with blanks around the operator, and nothing behind the value. -/
theorem operatorAndValue?_eq_some {op : Operator} : operatorAndValue? cs = some (op, value) ↔
    ∃ gap gap', Blank gap ∧ Blank gap' ∧
      '"' ∉ value ∧ cs = gap ++ op.word ++ gap' ++ quote value := by
  simp only [operatorAndValue?, Option.bind_eq_bind, Option.bind_eq_some_iff, Prod.exists]
  constructor
  · rintro ⟨op', rest, hop, value', hvalue, h⟩
    obtain ⟨rfl, rfl⟩ := Prod.mk.inj (Option.some.inj h)
    obtain ⟨gap', hgap', hquote, rfl⟩ := quotedRest?_eq_some.mp hvalue
    obtain ⟨gap, hgap, hsplit⟩ := exists_trimLeft cs
    refine ⟨gap, gap', hgap, hgap', hquote, ?_⟩
    rw [hsplit, trimLeft, takeOperator?_eq_some.mp hop]
    simp only [List.append_assoc]
  · rintro ⟨gap, gap', hgap, hgap', hquote, rfl⟩
    refine ⟨op, gap' ++ quote value, takeOperator?_eq_some.mpr ?_, value, ?_, rfl⟩
    · rw [List.append_assoc, List.append_assoc]
      exact trimLeft_gap hgap (op.stops_blank _)
    · exact quotedRest?_eq_some.mpr ⟨gap', hgap', hquote, rfl⟩

/-! ## Conditions -/

/-- Where the path of a condition leads. -/
def target : Condition → Path
  | .hasRole _ => .roles
  | .compare field _ _ => .field field

/-- The subjects of a condition are the paths that lead to what it is about. -/
theorem subject_iff {c : Condition} {path : List Char} :
    c.Subject path ↔ ∃ p : RawPath, p.Valid ∧
    p.resolve = .ok (target c) ∧ path = '.' :: p.toList := by
  cases c with
  | hasRole role =>
    constructor
    · rintro rfl
      exact ⟨⟨"roles".toList, none⟩, ⟨⟨'r', "oles".toList, rfl, rfl, by decide⟩, nofun⟩, rfl, rfl⟩
    · rintro ⟨p, -, hroles, rfl⟩
      rw [RawPath.eq_of_resolve_roles hroles]
      rfl
  | compare field comparison value =>
    refine ⟨exists_path_of_written, ?_⟩
    rintro ⟨p, hp, hfield, rfl⟩
    exact hp.written hfield

/-- A condition is what its three parts say, if they go together. -/
theorem condition_eq_ok_iff {c : Condition} : condition cs = .ok c ↔
    ∃ p, takeCondition? cs = some (p, c.operator, c.value.toList) ∧ p.resolve = .ok (target c) := by
  unfold condition
  cases htake : takeCondition? cs with
  | none => exact ⟨nofun, fun ⟨p, hp, _⟩ => absurd hp nofun⟩
  | some taken =>
    obtain ⟨p, op, value⟩ := taken
    constructor
    · intro h
      cases hpath : p.resolve with
      | error fault =>
        simp only [hpath] at h
        cases h
      | ok path =>
        simp only [hpath, ok_bind] at h
        have htext : (String.ofList value).toList = value := String.toList_ofList
        -- of the paths and the operators only some go together
        cases path <;> cases op <;> cases h
        all_goals exact ⟨p, congrArg (fun value => some (p, _, value)) htext.symm, hpath⟩
    · rintro ⟨p', htaken, hpath⟩
      simp only [Option.some.injEq, Prod.mk.injEq] at htaken
      obtain ⟨rfl, rfl, rfl⟩ := htaken
      have htext : String.ofList c.value.toList = c.value := String.ofList_toList
      simp only [hpath, ok_bind, htext]
      cases c with
      | hasRole role => rfl
      | compare field comparison value => cases comparison <;> rfl

/-- Blanks end a path, and with no blank it is what follows that ends it. -/
theorem endsPath_append (hgap : Blank gap) (h : gap ≠ [] ∨ EndsPath rest) :
    EndsPath (gap ++ rest) := by
  cases gap with
  | nil => exact h.resolve_left fun hne => hne rfl
  | cons c tail =>
    intro d hd hpath
    rw [← Option.some.inj hd] at hpath
    exact Bool.false_ne_true (hpath.not_blank.symm.trans (hgap c List.mem_cons_self))

/-- A path is read up to the operator, unless the word `has` follows it without a gap. -/
theorem takeCondition?_append {p : RawPath} {op : Operator} (hp : p.Valid) (hgap : Blank gap)
    (hgap' : Blank gap') (hvalue : '"' ∉ value) (hcut : gap ≠ [] ∨ op ≠ .has) :
    takeCondition? ('.' :: p.toList ++ gap ++ op.word ++ gap' ++ quote value) =
      some (p, op, value) := by
  have hends : EndsPath (gap ++ (op.word ++ (gap' ++ quote value))) :=
    endsPath_append hgap <| hcut.imp_right fun hop => by
      cases op with
      | has => exact absurd rfl hop
      | equal => exact fun d hd => Option.some.inj hd ▸ by decide
      | notEqual => exact fun d hd => Option.some.inj hd ▸ by decide
  have hpath := takePath?_append hp hends
  have hrest : operatorAndValue? (gap ++ (op.word ++ (gap' ++ quote value))) = some (op, value) :=
    operatorAndValue?_eq_some.mpr ⟨gap, gap', hgap, hgap', hvalue, by simp only [List.append_assoc]⟩
  simp only [List.cons_append, List.append_assoc, takeCondition?, hpath, hrest, Option.bind_eq_bind,
    Option.bind_some]
  rfl

/-- Without a gap the word `has` is first read as the end of the name before it, and given back. -/
theorem takeCondition?_roleshas (hgap : Blank gap) (hvalue : '"' ∉ value) :
    takeCondition? (".roleshas".toList ++ gap ++ quote value) =
      some (⟨"roles".toList, none⟩, .has, value) := by
  have hvalid : RawPath.Valid ⟨"roleshas".toList, none⟩ :=
    ⟨⟨'r', "oleshas".toList, rfl, rfl, by decide⟩, nofun⟩
  have hends : EndsPath (gap ++ quote value) :=
    endsPath_append hgap (.inr fun d hd => Option.some.inj hd ▸ by decide)
  have hpath : takePath? (".roleshas".toList ++ gap ++ quote value) =
      some (⟨"roleshas".toList, none⟩, gap ++ quote value) := by
    rw [List.append_assoc]
    exact takePath?_append hvalid hends
  -- the operator is taken for a part of the path, and is missing behind it
  have hnone : operatorAndValue? (gap ++ quote value) = none := by
    have hgone : (gap ++ quote value).dropWhile isBlank = quote value := trimLeft_quote hgap value
    rw [operatorAndValue?, hgone]
    rfl
  have hvalue : quotedRest? (gap ++ quote value) = some value :=
    quotedRest?_eq_some.mpr ⟨gap, hgap, hvalue, rfl⟩
  simp only [takeCondition?, hpath, hnone, hvalue, Option.bind_eq_bind, Option.bind_some]
  rfl

/-- A name that ends in the word of the condition for roles is a name with that word behind it. -/
theorem withoutHas?_eq_some {short : List Char} (h : withoutHas? name = some short) :
    name = short ++ "has".toList := by
  unfold withoutHas? at h
  split at h
  case isFalse => exact absurd h nofun
  case isTrue hhas =>
    obtain ⟨front, rfl⟩ := List.isSuffixOf_iff_suffix.mp hhas.1
    have hfront : (front ++ ['h', 'a', 's']).take ((front ++ ['h', 'a', 's']).length - 3) =
        front := by
      rw [List.length_append]
      exact List.take_left
    rw [hfront] at h
    rw [Option.some.inj h]
    rfl

/-- Only a path that leads to the roles of a node gives a final `has` back. -/
theorem eq_of_withoutHas? {path p : RawPath} (h : path.withoutHas? = some p)
    (hroles : p.resolve = .ok .roles) :
    path = ⟨"roleshas".toList, none⟩ := by
  obtain ⟨name, key⟩ := path
  rw [RawPath.eq_of_resolve_roles hroles] at h
  cases key with
  | none =>
    obtain ⟨short, hshort, heq⟩ := Option.map_eq_some_iff.mp h
    have hname : name = short ++ "has".toList := withoutHas?_eq_some hshort
    rw [hname, (RawPath.mk.inj heq).1]
    rfl
  | some key =>
    obtain ⟨short, hshort, heq⟩ := Option.map_eq_some_iff.mp h
    exact absurd (RawPath.mk.inj heq).2 nofun

/-- **A condition is read where it is written, and only there.** The forms are those of the grammar:
a comparison of a field with a quoted value, and a role that a node has to have. -/
theorem condition_eq_ok {c : Condition} : condition cs = .ok c ↔ c.Written cs := by
  rw [condition_eq_ok_iff]
  constructor
  · rintro ⟨p, htake, hresolve⟩
    simp only [takeCondition?, Option.bind_eq_bind, Option.bind_eq_some_iff, Prod.exists] at htake
    obtain ⟨path, rest, hhead, h⟩ := htake
    obtain ⟨hvalid, rfl⟩ := takePath?_eq_some hhead
    split at h
    case h_1 op value hrest =>
      simp only [Option.pure_def, Option.some.injEq, Prod.mk.injEq] at h
      obtain ⟨rfl, rfl, rfl⟩ := h
      obtain ⟨gap, gap', hgap, hgap', hvalue, rfl⟩ := operatorAndValue?_eq_some.mp hrest
      refine ⟨'.' :: path.toList, gap,
        gap', subject_iff.mpr ⟨path, hvalid, hresolve, rfl⟩, hgap, hgap', hvalue, ?_⟩
      simp only [List.cons_append, List.append_assoc]
    case h_2 hrest =>
      -- the operator was found in the path: no other field than the roles takes it
      simp only [Option.pure_def, Option.bind_eq_some_iff, Option.some.injEq, Prod.mk.injEq] at h
      obtain ⟨p', hwithout, value, hquoted, rfl, hop, rfl⟩ := h
      obtain ⟨gap', hgap', hvalue, rfl⟩ := quotedRest?_eq_some.mp hquoted
      cases c with
      | hasRole role =>
        rw [eq_of_withoutHas? hwithout hresolve]
        exact ⟨".roles".toList, [], gap', rfl, blank_nil, hgap', hvalue, rfl⟩
      | compare field comparison value => cases comparison <;> exact absurd hop nofun
  · rintro ⟨path, gap, gap', hpath, hgap, hgap', hvalue, rfl⟩
    obtain ⟨p, hvalid, hresolve, rfl⟩ := subject_iff.mp hpath
    by_cases hcut : gap ≠ [] ∨ c.operator ≠ .has
    · exact ⟨p, takeCondition?_append hvalid hgap hgap' hvalue hcut, hresolve⟩
    · -- the word `has` right behind the path
      rw [not_or, not_not, not_not] at hcut
      obtain ⟨rfl, hop⟩ := hcut
      cases c with
      | hasRole role =>
        rw [RawPath.eq_of_resolve_roles hresolve]
        exact ⟨_, takeCondition?_roleshas hgap' hvalue, rfl⟩
      | compare field comparison value => cases comparison <;> exact absurd hop nofun

end QueryParser

end CoChange
