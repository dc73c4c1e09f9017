import CoChange.Arithmetic
import CoChange.Proofs.Yaml.NodeReader
import CoChange.Proofs.Yaml.WrittenText
import CoChange.Yaml.Reader

/-!
# Written documents are read back

* **`Document.ofTokens_tokens`**: the tokens of a mapping are read as a document without anchors.
* **`Document.valueOf_nodeOf`**: the nodes of a document stand for it, if it is not nested too
  deeply; by recursion on the document.
* **`parse_render`**: so a written mapping is read back.
-/

namespace CoChange.Yaml

/-! ## Documents -/

/-- **The tokens of a mapping are read as a document.** The fuel is enough, as it grows with the
number of tokens. -/
theorem Document.ofTokens_tokens (e : String × Json.Value) (members : List (String × Json.Value))
    (isOpen : Bool) :
    Document.ofTokens (valueTokens false (.object (e :: members)) ++ endTokens isOpen) =
      .ok (some ⟨nodeOf (.object (e :: members)), []⟩) := by
  have hends : NodeReader.skipDocumentEnds (endTokens isOpen) = [] := by cases isOpen <;> rfl
  have htokens : valueTokens false (.object (e :: members)) ++ endTokens isOpen =
      .blockMappingStart :: (entryTokens (e :: members) ++ [.blockEnd] ++ endTokens isOpen) := by
    simp [valueTokens]
  have hdocument : ∀ fuel, 4 * (valueTokens false (.object (e :: members))).length ≤ fuel →
      (NodeReader.document fuel).run
          ⟨valueTokens false (.object (e :: members)) ++ endTokens isOpen,
            defaultHandles, [], 0, [], []⟩ =
        .ok (some (nodeOf (.object (e :: members))),
          ⟨endTokens isOpen, defaultHandles, [], 0, [], []⟩) := by
    intro fuel hfuel
    have hnode :=
      NodeReader.node_tokens (.object (e :: members)) false ⟨[], defaultHandles, [], 0, [], []⟩
      (endTokens isOpen) fuel hfuel Bool.noConfusion
    rw [htokens] at hnode ⊢
    exact NodeReader.document_of_node rfl hnode hends
  rw [Document.ofTokens, hdocument _ (by rw [List.length_append]; omega), ok_bind]
  rfl

/-! ## Values -/

theorem plainValue_words : plainValue "null" = .ok .null ∧ plainValue "true" = .ok (.bool true) ∧
    plainValue "false" = .ok (.bool false) := ⟨rfl, rfl, rfl⟩

/-- A text stands for itself, in whatever style it is written. -/
theorem scalarValue_text (s : String) :
    scalarValue none (styleOf false s = .plain) s = .ok (.string s) := by
  rcases Lexer.styleOf_cases s with ⟨hstyle, -, hquotes⟩ | ⟨hstyle, -⟩ | hstyle | ⟨hstyle, -⟩
  · rw [hstyle, scalarValue, plainValue]
    simp only [Scalar.resolve_of_not_needsQuotes hquotes]
    rfl
  all_goals
    rw [hstyle]
    rfl

namespace Document

variable {d : Document} {left depth : Nat}

theorem valueOf_scalar (plain : Bool) (text : String) :
    d.valueOf depth (.scalar none plain text) = liftM (scalarValue none plain text) := by
  cases depth <;> delta valueOf <;> rfl

theorem valueOf_sequence (items : List Node) : d.valueOf (depth + 1) (.sequence none items) =
    (items.mapM (d.valueOf depth) >>= fun vs => pure (.array vs)) := by
  delta valueOf
  rfl

/-- The value of an entry with a scalar as its key. -/
def entryValue (d : Document) (depth : Nat) (e : Node × Node) :
    ValueReader (String × Json.Value) := do
  let name ← liftM (keyText (← d.follow e.1))
  return (name, ← d.valueOf depth e.2)

theorem valueOf_mapping (entries : List (Node × Node)) :
    d.valueOf (depth + 1) (.mapping none entries) =
    (entries.mapM (d.entryValue depth) >>= fun members => pure (.object members)) := by
  delta entryValue valueOf
  rfl

/-- The items of a list are read one by one, and each leaves as much as it found. -/
theorem mapM_itemNodes {f : Node → ValueReader Json.Value} {vs : List Json.Value}
    (h : ∀ v ∈ vs, ∀ left, f (nodeOf v) left = .ok (v, left)) (left : Nat) :
    (itemNodes vs).mapM f left = .ok (vs, left) := by
  induction vs with
  | nil => rfl
  | cons v vs ih =>
    rw [List.forall_mem_cons] at h
    rw [itemNodes, List.mapM_cons, bind_of_ok (h.1 left), bind_of_ok (ih h.2)]
    rfl

/-- The entries of a map are read one by one: each name is a scalar that is read as a text. -/
theorem mapM_entryNodes {members : List (String × Json.Value)}
    (h : ∀ e ∈ members, ∀ left, d.valueOf depth (nodeOf e.2) left = .ok (e.2, left)) (left : Nat) :
    (entryNodes members).mapM (d.entryValue depth) left = .ok (members, left) := by
  induction members with
  | nil => rfl
  | cons e members ih =>
    obtain ⟨name, v⟩ := e
    obtain ⟨hv, hmembers⟩ : (∀ left, d.valueOf depth (nodeOf v) left = .ok (v, left)) ∧ _ :=
      List.forall_mem_cons.mp h
    have hentry : d.entryValue depth (.scalar none true name, nodeOf v) left =
        .ok ((name, v), left) := by
      have hfollow : d.follow (.scalar none true name) left =
          .ok (.scalar none true name, left) := rfl
      have hname : (liftM (keyText (.scalar none true name)) : ValueReader String) left =
          .ok (name, left) := rfl
      rw [entryValue, bind_of_ok hfollow, bind_of_ok hname, bind_of_ok (hv left)]
      rfl
    rw [entryNodes, List.mapM_cons, bind_of_ok hentry, bind_of_ok (ih hmembers)]
    rfl

/-- **The nodes of a document stand for it**, if it is not nested too deeply. The induction is on
the document; a budget for repeated nodes is not used up, since there are none. -/
theorem valueOf_nodeOf (v : Json.Value) (hlegible : v.Legible) {depth : Nat}
    (hdepth : v.depth ≤ depth) (left : Nat) :
    d.valueOf depth (nodeOf v) left = .ok (v, left) := by
  -- a scalar is read without a look at the depth
  have hscalar : ∀ {plain : Bool} {text : String} {v : Json.Value} {depth left : Nat},
      scalarValue none plain text = .ok v →
      d.valueOf depth (.scalar none plain text) left = .ok (v, left) := by
    intro plain text v depth left hv
    rw [valueOf_scalar, hv]
    rfl
  induction v using Json.Value.nestedInduction generalizing depth left with
  | null => exact hscalar plainValue_words.1
  | bool b =>
    cases b with
    | true => exact hscalar plainValue_words.2.1
    | false => exact hscalar plainValue_words.2.2
  | number n => exact hscalar (plainValue_renderNumber hlegible)
  | string s => exact hscalar (scalarValue_text s)
  | array vs ih =>
    rw [Json.Value.depth] at hdepth
    obtain ⟨depth, rfl⟩ :=
      Nat.exists_eq_succ_of_ne_zero (Nat.ne_of_gt (Nat.lt_of_lt_of_le (Nat.succ_pos _) hdepth))
    have hvs : ∀ w ∈ vs, ∀ left, d.valueOf depth (nodeOf w) left = .ok (w, left) := fun w hw =>
      ih w hw (Json.Value.legibleItems_iff.mp hlegible w hw)
        (Nat.le_trans (Json.Value.depth_le_depthItems hw) (Nat.le_of_succ_le_succ hdepth))
    rw [nodeOf, valueOf_sequence, bind_of_ok (mapM_itemNodes hvs left)]
    rfl
  | object members ih =>
    rw [Json.Value.depth] at hdepth
    obtain ⟨depth, rfl⟩ :=
      Nat.exists_eq_succ_of_ne_zero (Nat.ne_of_gt (Nat.lt_of_lt_of_le (Nat.succ_pos _) hdepth))
    have hvalues : ∀ e ∈ members, ∀ left, d.valueOf depth (nodeOf e.2) left = .ok (e.2, left) :=
      fun e he =>
      ih e he (Json.Value.legibleMembers_iff.mp hlegible e he).2
        (Nat.le_trans (Json.Value.depth_le_depthMembers he) (Nat.le_of_succ_le_succ hdepth))
    rw [nodeOf, valueOf_mapping, bind_of_ok (mapM_entryNodes hvalues left)]
    rfl

end Document

/-- **A written mapping is read back.** It is cut into its tokens, these are read as its nodes, and
the nodes stand for it. -/
theorem parse_render {e : String × Json.Value} {members : List (String × Json.Value)}
    (hlegible : (Json.Value.object (e :: members)).Legible)
    (hdepth : (Json.Value.object (e :: members)).depth ≤ Document.maxDepth) :
    parse (Value.ofJson (.object (e :: members))).render = .ok (.object (e :: members)) := by
  have hvalue : (Document.valueOf ⟨nodeOf (.object (e :: members)), []⟩ Document.maxDepth
      (nodeOf (.object (e :: members)))).run (100 * (nodeOf (.object (e :: members))).size) = _ :=
    Document.valueOf_nodeOf _ hlegible hdepth _
  rw [parse, ofText_render hlegible, ok_bind, Document.ofTokens_tokens, ok_bind]
  simp only [Document.value]
  rw [hvalue, ok_bind]
  rfl

end CoChange.Yaml
