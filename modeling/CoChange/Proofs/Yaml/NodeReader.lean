import CoChange.Arithmetic
import CoChange.Proofs.Text
import CoChange.Proofs.Yaml.Structure
import CoChange.Yaml.Node

/-!
# Tokens are read as nodes

The tokens of a document (`valueTokens`) are read as its nodes (`nodeOf`), with the tokens behind
them left.

* **`blockItems_tokens`**, **`blockEntries_tokens`**: the parts of a collection are read, if each of
  them is.
* **`node_tokens`**: so every document is read; by recursion on the document.
* **`Document.ofTokens_tokens`**: so a text of such tokens holds the document.
-/

namespace CoChange.Yaml

mutual

def nodeOf : Json.Value → Node
  | .null => .scalar none true "null"
  | .bool b => .scalar none true (if b then "true" else "false")
  | .number n => .scalar none true (String.ofList (renderNumber n))
  | .string s => .scalar none (styleOf false s = .plain) s
  | .array items => .sequence none (itemNodes items)
  | .object members => .mapping none (entryNodes members)

def itemNodes : List Json.Value → List Node
  | [] => []
  | v :: rest => nodeOf v :: itemNodes rest

def entryNodes : List (String × Json.Value) → List (Node × Node)
  | [] => []
  | (name, v) :: rest => (.scalar none true name, nodeOf v) :: entryNodes rest

end

/-- The state of reading in front of other tokens. -/
def NodeState.before (s : NodeState) (ts : List Token) : NodeState := { s with tokens := ts }

namespace NodeReader

variable {s : NodeState} {t : Token} {ts : List Token}

/-! ## Steps of reading -/

theorem peek_before : peek (s.before ts) = .ok (ts.head?, s.before ts) := rfl

theorem skip_before : skip (s.before (t :: ts)) = .ok ((), s.before ts) := rfl

theorem skipIf_same : skipIf t (s.before (t :: ts)) = .ok (true, s.before ts) := by
  rw [skipIf, bind_of_ok peek_before, List.head?_cons, if_pos rfl, bind_of_ok skip_before]
  rfl

theorem skipIf_other (h : ts.head? ≠ some t) :
    skipIf t (s.before ts) = .ok (false, s.before ts) := by
  rw [skipIf, bind_of_ok peek_before, if_neg h]
  rfl

theorem expect_same : expect t (s.before (t :: ts)) = .ok ((), s.before ts) := by
  rw [expect, bind_of_ok skipIf_same]
  rfl

/-- Whether a token begins the content of a node. -/
def beginsContent : Token → Bool
  | .scalar _ _ | .flowSequenceStart | .flowMappingStart | .blockSequenceStart
  | .blockMappingStart | .blockEntry => true
  | _ => false

/-- No tag and no anchor stands in front of a content. -/
theorem properties_none (h : beginsContent t = true) :
    properties (s.before (t :: ts)) = .ok (⟨none, none⟩, s.before (t :: ts)) := by
  cases t <;> first | rfl | cases h

/-- A node without tag and anchor is its content. -/
theorem node_of_content {dashes : Bool} {fuel : Nat} {n : Node} {s' : NodeState}
    (ht : beginsContent t = true)
    (h : content true dashes ⟨none, none⟩ fuel (s.before (t :: ts)) = .ok (n, s')) :
    node true dashes (fuel + 1) (s.before (t :: ts)) = .ok (n, s') := by
  rw [node, bind_of_ok peek_before]
  cases t <;> first
    | exact absurd ht Bool.false_ne_true
    | simp only [List.head?_cons]
      rw [bind_of_ok (properties_none ht), bind_of_ok h]
      rfl

/-- A node is read where a token stands that does not end the collection. -/
theorem nodeOrEmpty_of_node {dashes : Bool} {ends : List Token} {fuel : Nat} (ht : t ∉ ends) :
    nodeOrEmpty true dashes ends (fuel + 1) (s.before (t :: ts)) =
      node true dashes fuel (s.before (t :: ts)) := by
  have hat : atAny ends (s.before (t :: ts)) = .ok (false, s.before (t :: ts)) := by
    rw [atAny, bind_of_ok peek_before, List.head?_cons, Option.any_some, List.contains_eq_mem,
      decide_eq_false ht]
    rfl
  rw [nodeOrEmpty, bind_of_ok hat, if_neg Bool.false_ne_true]

/-! ## Contents -/

variable {dashes : Bool} {fuel : Nat}

/-- A scalar is read as a node with its text. -/
theorem content_scalar (plain : Bool) (text : List Char) :
    content true dashes ⟨none, none⟩ (fuel + 1) (s.before (.scalar plain text :: ts)) =
      .ok (.scalar none plain (String.ofList text), s.before ts) := by
  rw [content, bind_of_ok peek_before]
  simp only [List.head?_cons]
  rw [bind_of_ok skip_before, if_neg (by simp)]
  rfl

/-- The two brackets of an empty list are read as a list without items. -/
theorem content_emptyList : content true dashes ⟨none, none⟩ (fuel + 2)
    (s.before (.flowSequenceStart :: .flowSequenceEnd :: ts)) =
      .ok (.sequence none [], s.before ts) := by
  have hitems : flowItems true (fuel + 1) (s.before (.flowSequenceEnd :: ts)) =
      .ok ([], s.before ts) := by
    rw [flowItems, bind_of_ok skipIf_same, if_pos rfl]
    rfl
  rw [content, bind_of_ok peek_before]
  simp only [List.head?_cons]
  rw [bind_of_ok skip_before, bind_of_ok hitems]
  rfl

/-- The two braces of an empty map are read as a map without entries. -/
theorem content_emptyMap : content true dashes ⟨none, none⟩ (fuel + 2)
    (s.before (.flowMappingStart :: .flowMappingEnd :: ts)) =
      .ok (.mapping none [], s.before ts) := by
  have hentries : flowEntries true (fuel + 1) (s.before (.flowMappingEnd :: ts)) =
      .ok ([], s.before ts) := by
    rw [flowEntries, bind_of_ok skipIf_same, if_pos rfl]
    rfl
  rw [content, bind_of_ok peek_before]
  simp only [List.head?_cons]
  rw [bind_of_ok skip_before, bind_of_ok hentries]
  rfl

/-- A sequence that is set in is read with its end. -/
theorem content_sequence {items : List Node} {us : List Token}
    (h : blockItems [.blockEntry, .blockEnd] fuel (s.before us) =
      .ok (items, s.before (.blockEnd :: ts))) :
    content true dashes ⟨none, none⟩ (fuel + 1) (s.before (.blockSequenceStart :: us)) =
      .ok (.sequence none items, s.before ts) := by
  rw [content, bind_of_ok peek_before]
  simp only [List.head?_cons]
  rw [bind_of_ok skip_before, bind_of_ok h, bind_of_ok expect_same]
  rfl

/-- A sequence that stands right below its key is read by its dashes. -/
theorem content_dashes {items : List Node} {us : List Token} {s' : NodeState}
    (h : blockItems [.blockEntry, .key, .value, .blockEnd] fuel (s.before (.blockEntry :: us)) =
      .ok (items, s')) :
    content true true ⟨none, none⟩ (fuel + 1) (s.before (.blockEntry :: us)) =
      .ok (.sequence none items, s') := by
  rw [content, bind_of_ok peek_before]
  simp only [List.head?_cons]
  rw [if_pos (by simp), bind_of_ok h]
  rfl

/-- A mapping is read with its end. -/
theorem content_mapping {entries : List (Node × Node)} {us : List Token}
    (h : blockEntries fuel (s.before us) = .ok (entries, s.before (.blockEnd :: ts))) :
    content true dashes ⟨none, none⟩ (fuel + 1) (s.before (.blockMappingStart :: us)) =
      .ok (.mapping none entries, s.before ts) := by
  rw [content, bind_of_ok peek_before]
  simp only [List.head?_cons]
  rw [bind_of_ok skip_before, bind_of_ok h, bind_of_ok expect_same]
  rfl

/-! ## Documents -/

/-- What begins the tokens of a document. -/
theorem exists_valueTokens_cons (belowKey : Bool) (v : Json.Value) :
    ∃ t ts, valueTokens belowKey v = t :: ts ∧
    beginsContent t = true ∧ (t = .blockEntry → belowKey = true) := by
  match v with
  | .null => exact ⟨_, _, rfl, rfl, Token.noConfusion⟩
  | .bool _ => exact ⟨_, _, rfl, rfl, Token.noConfusion⟩
  | .number _ => exact ⟨_, _, rfl, rfl, Token.noConfusion⟩
  | .string _ => exact ⟨_, _, rfl, rfl, Token.noConfusion⟩
  | .array [] => exact ⟨_, _, rfl, rfl, Token.noConfusion⟩
  | .object [] => exact ⟨_, _, rfl, rfl, Token.noConfusion⟩
  | .object (_ :: _) => exact ⟨_, _, rfl, rfl, Token.noConfusion⟩
  | .array (_ :: _) =>
    cases belowKey with
    | true => exact ⟨_, _, rfl, rfl, fun _ => rfl⟩
    | false => exact ⟨_, _, rfl, rfl, Token.noConfusion⟩

/-- A document is read as its nodes. -/
def ReadAsNodes (belowKey : Bool) (v : Json.Value) : Prop :=
  ∀ (s : NodeState) (rest : List Token) (fuel : Nat), 4 * (valueTokens belowKey v).length ≤ fuel →
    (belowKey = true → rest.head? ≠ some .blockEntry) →
    node true belowKey fuel (s.before (valueTokens belowKey v ++ rest)) =
      .ok (nodeOf v, s.before rest)

/-- A value is read where there might be none. -/
theorem ReadAsNodes.orEmpty {belowKey : Bool} {v : Json.Value} (h : ReadAsNodes belowKey v)
    (ends : List Token)
    (hends : ∀ t ∈ ends, beginsContent t = true → t = .blockEntry ∧ belowKey = false)
    (s : NodeState) (rest : List Token) (hfuel : 4 * (valueTokens belowKey v).length < fuel)
    (hrest : belowKey = true → rest.head? ≠ some .blockEntry) :
    nodeOrEmpty true belowKey ends fuel (s.before (valueTokens belowKey v ++ rest)) =
      .ok (nodeOf v, s.before rest) := by
  obtain ⟨t, ts, htokens, ht, hdash⟩ := exists_valueTokens_cons belowKey v
  obtain ⟨fuel, rfl⟩ := Nat.exists_eq_add_of_lt (Nat.lt_of_le_of_lt (Nat.zero_le _) hfuel)
  -- the first token of a value is none of those that end the place
  have hmem : t ∉ ends := by
    intro hmem
    obtain ⟨hentry, hkey⟩ := hends t hmem ht
    rw [hdash hentry] at hkey
    cases hkey
  rw [Nat.zero_add] at hfuel ⊢
  have hnode := h s rest fuel (Nat.le_of_lt_succ hfuel) hrest
  rw [htokens, List.cons_append] at hnode ⊢
  rw [nodeOrEmpty_of_node hmem, hnode]

/-- **The items of a sequence are read**, if each of them is. The induction is on the items; each
dash is followed by the tokens of one of them. -/
theorem blockItems_tokens {vs : List Json.Value} (hvs : ∀ v ∈ vs, ReadAsNodes false v)
    (ends : List Token) {rest : List Token}
    (hends : ∀ t ∈ ends, beginsContent t = true → t = .blockEntry) (hpos : 0 < fuel)
    (hfuel : 4 * (itemTokens vs).length ≤ fuel + 2) (hrest : rest.head? ≠ some .blockEntry) :
    blockItems ends fuel (s.before (itemTokens vs ++ rest)) =
      .ok (itemNodes vs, s.before rest) := by
  induction vs generalizing fuel with
  | nil =>
    obtain ⟨fuel, rfl⟩ := Nat.exists_eq_succ_of_ne_zero (Nat.ne_of_gt hpos)
    rw [itemTokens, List.nil_append, blockItems, bind_of_ok (skipIf_other hrest),
      if_neg Bool.false_ne_true]
    rfl
  | cons v vs ih =>
    obtain ⟨fuel, rfl⟩ := Nat.exists_eq_succ_of_ne_zero (Nat.ne_of_gt hpos)
    rw [List.forall_mem_cons] at hvs
    rw [itemTokens, List.length_append, List.length_cons] at hfuel
    -- every item takes its dash from the fuel
    have hfuel' : 4 * (valueTokens false v).length < fuel ∧
        4 * (itemTokens vs).length ≤ fuel + 2 := by omega
    have hitem := hvs.1.orEmpty ends
      (fun t ht hbegins => ⟨hends t ht hbegins, rfl⟩) s (itemTokens vs ++ rest) hfuel'.1
      Bool.noConfusion
    rw [itemTokens, List.append_assoc, List.cons_append, blockItems, bind_of_ok skipIf_same,
      if_pos rfl, bind_of_ok hitem, bind_of_ok (ih hvs.2 (Nat.zero_lt_of_lt hfuel'.1) hfuel'.2)]
    rfl

/-- **The entries of a mapping are read**, if their values are. The induction is on the entries;
each key is a scalar, followed by the tokens of its value. -/
theorem blockEntries_tokens {members : List (String × Json.Value)}
    (hvalues : ∀ e ∈ members, ReadAsNodes true e.2)
    (hpos : 0 < fuel) (hfuel : 4 * (entryTokens members).length ≤ fuel + 2) (rest : List Token) :
    blockEntries fuel (s.before (entryTokens members ++ .blockEnd :: rest)) =
      .ok (entryNodes members, s.before (.blockEnd :: rest)) := by
  induction members generalizing fuel with
  | nil =>
    obtain ⟨fuel, rfl⟩ := Nat.exists_eq_succ_of_ne_zero (Nat.ne_of_gt hpos)
    rw [entryTokens, List.nil_append, blockEntries, bind_of_ok (skipIf_other (by simp)),
      if_neg Bool.false_ne_true]
    rfl
  | cons e members ih =>
    obtain ⟨name, v⟩ := e
    obtain ⟨fuel, rfl⟩ :=
      Nat.exists_eq_add_of_le (show 4 ≤ fuel by simp [entryTokens] at hfuel; omega)
    obtain ⟨hv, hmembers⟩ : ReadAsNodes true v ∧ ∀ e ∈ members, ReadAsNodes true e.2 :=
      List.forall_mem_cons.mp hvalues
    simp only [entryTokens, List.length_append, List.length_cons] at hfuel
    have hkey : nodeOrEmpty true true
        [.key, .value, .blockEnd] (fuel + 3) (s.before (.scalar true name.toList ::
        .value :: (valueTokens true v ++ (entryTokens members ++ .blockEnd :: rest)))) =
        .ok (.scalar none true name, s.before (.value :: (valueTokens true v ++
          (entryTokens members ++ .blockEnd :: rest)))) := by
      rw [nodeOrEmpty_of_node (by simp), node_of_content rfl (content_scalar true name.toList),
        String.ofList_toList]
    -- an item of a list that is the value must not be followed by another dash
    have hnext : (entryTokens members ++ .blockEnd :: rest).head? ≠ some .blockEntry := by
      cases members <;> simp [entryTokens]
    have hfuel' : 4 * (valueTokens true v).length < fuel + 3 ∧
        4 * (entryTokens members).length ≤ fuel + 3 + 2 := by
      omega
    have hvalue := hv.orEmpty [.key, .value, .blockEnd] (by simp [beginsContent]) s
      (entryTokens members ++ .blockEnd :: rest) hfuel'.1 fun _ => hnext
    have hentries := ih hmembers (Nat.add_pos_right fuel (by decide)) hfuel'.2
    -- an entry is its key, the mark of the value, and the value
    have htokens : entryTokens ((name, v) :: members) ++ .blockEnd :: rest =
        .key :: .scalar true name.toList ::
        .value :: (valueTokens true v ++ (entryTokens members ++ .blockEnd :: rest)) := by
      simp [entryTokens]
    rw [htokens, Nat.add_comm 4 fuel, blockEntries, bind_of_ok skipIf_same, if_pos rfl,
      bind_of_ok hkey, bind_of_ok skipIf_same, if_pos rfl, bind_of_ok hvalue]
    exact bind_of_ok hentries

/-- Scalars and empty collections are read as nodes. -/
theorem node_flat {v : Json.Value} (hflat : Lexer.isFlat v = true) (belowKey : Bool) :
    ReadAsNodes belowKey v := by
  intro s rest fuel hfuel _
  have hlong : 4 ≤ fuel := by
    obtain ⟨t, ts, htokens, -⟩ := exists_valueTokens_cons belowKey v
    rw [htokens, List.length_cons] at hfuel
    omega
  obtain ⟨fuel, rfl⟩ := Nat.exists_eq_add_of_le' hlong
  match v with
  | .null => exact node_of_content rfl (content_scalar true "null".toList)
  | .bool true => exact node_of_content rfl (content_scalar true "true".toList)
  | .bool false => exact node_of_content rfl (content_scalar true "false".toList)
  | .number n => exact node_of_content rfl (content_scalar true (renderNumber n))
  | .string text =>
    -- the text is the same in every style
    have hscalar : content true belowKey ⟨none, none⟩ (fuel + 3)
        (s.before (.scalar (styleOf false text = .plain) text.toList :: rest)) =
          .ok (.scalar none (styleOf false text = .plain) (String.ofList text.toList),
            s.before rest) :=
      content_scalar _ _
    rw [String.ofList_toList] at hscalar
    exact node_of_content rfl hscalar
  | .array [] => exact node_of_content rfl content_emptyList
  | .object [] => exact node_of_content rfl content_emptyMap

/-- A sequence is read as a node if its items are, set in or by its dashes. -/
theorem node_sequence {v : Json.Value} {vs : List Json.Value}
    (hvs : ∀ w ∈ v :: vs, ReadAsNodes false w)
    (belowKey : Bool) : ReadAsNodes belowKey (.array (v :: vs)) := by
  intro s rest fuel hfuel hrest
  cases belowKey with
  | true =>
    -- below a key the dashes may stand where the key does, and no token opens the list
    have htokens : valueTokens true (.array (v :: vs)) = itemTokens (v :: vs) := rfl
    rw [htokens] at hfuel ⊢
    have hlong : 1 ≤ (itemTokens (v :: vs)).length := by simp [itemTokens]
    obtain ⟨fuel, rfl⟩ := Nat.exists_eq_add_of_le' (show 2 ≤ fuel by omega)
    have hitems := blockItems_tokens (s := s) hvs [.blockEntry, .key, .value, .blockEnd]
      (by simp [beginsContent]) (show 0 < fuel by omega) hfuel (hrest rfl)
    exact node_of_content rfl (content_dashes hitems)
  | false =>
    have htokens : valueTokens false (.array (v :: vs)) ++ rest =
        .blockSequenceStart :: (itemTokens (v :: vs) ++ .blockEnd :: rest) := by
      simp [valueTokens]
    have hlength : (valueTokens false (.array (v :: vs))).length =
        (itemTokens (v :: vs)).length + 2 := by
      simp [valueTokens]
    rw [hlength] at hfuel
    obtain ⟨fuel, rfl⟩ := Nat.exists_eq_add_of_le' (show 2 ≤ fuel by omega)
    have hitems := blockItems_tokens (s := s) hvs [.blockEntry, .blockEnd] (by simp [beginsContent])
      (show 0 < fuel by omega) (by omega)
        (show (Token.blockEnd :: rest).head? ≠ some .blockEntry by simp)
    rw [htokens]
    exact node_of_content rfl (content_sequence hitems)

/-- A mapping is read as a node if its values are. -/
theorem node_mapping {e : String × Json.Value} {members : List (String × Json.Value)}
    (hvalues : ∀ f ∈ e :: members, ReadAsNodes true f.2) (belowKey : Bool) :
    ReadAsNodes belowKey (.object (e :: members)) := by
  intro s rest fuel hfuel _
  have htokens : valueTokens belowKey (.object (e :: members)) ++ rest =
      .blockMappingStart :: (entryTokens (e :: members) ++ .blockEnd :: rest) := by
    simp [valueTokens]
  have hlength : (valueTokens belowKey (.object (e :: members))).length =
      (entryTokens (e :: members)).length + 2 := by
    simp [valueTokens]
  rw [hlength] at hfuel
  obtain ⟨fuel, rfl⟩ := Nat.exists_eq_add_of_le' (show 2 ≤ fuel by omega)
  have hentries := blockEntries_tokens (s := s) hvalues (show 0 < fuel by omega) (by omega) rest
  rw [htokens]
  exact node_of_content rfl (content_mapping hentries)

/-- **Every document is read as its nodes.** The induction is on the document, in both of the places
where a document can stand. -/
theorem node_tokens (v : Json.Value) (belowKey : Bool) : ReadAsNodes belowKey v := by
  induction v using Lexer.blockInduction generalizing belowKey with
  | flat v hflat => exact node_flat hflat belowKey
  | sequence v vs ih => exact node_sequence (fun w hw => ih w hw false) belowKey
  | mapping e members ih => exact node_mapping (fun f hf => ih f hf true) belowKey

/-- A document is its only node, with the marks of its end behind it. -/
theorem document_of_node {fuel : Nat} {n : Node} {s' : NodeState} (ht : beginsContent t = true)
    (h : node true false fuel (s.before (t :: ts)) = .ok (n, s'))
    (hends : skipDocumentEnds s'.tokens = []) :
    document fuel (s.before (t :: ts)) = .ok (some n, s') := by
  have hget : ∀ s : NodeState, (get : NodeReader NodeState) s = .ok (s, s) := fun _ => rfl
  -- the text has neither directives nor a mark of its start
  have hdirectives : directives false [] (t :: ts) (s.before (t :: ts)) =
      .ok ((), s.before (t :: ts)) := by
    cases t <;> first | rfl | cases ht
  have hstart : skipIf .documentStart (s.before (t :: ts)) = .ok (false, s.before (t :: ts)) :=
    skipIf_other (by rintro ⟨⟩; cases ht)
  have htokens : (s.before (t :: ts)).tokens = t :: ts := rfl
  rw [document, bind_of_ok (hget _), htokens, List.isEmpty_cons, if_neg Bool.false_ne_true,
    bind_of_ok hdirectives, bind_of_ok hstart]
  simp only [Bool.not_false, Bool.true_and, Bool.false_and, Bool.false_eq_true, if_false]
  rw [bind_of_ok (hget _), htokens, if_neg (by simp), bind_of_ok peek_before,
    bind_of_ok h, bind_of_ok (hget _), hends]
  rfl
end NodeReader

end CoChange.Yaml
