import ApiTypes.External.Files
import ApiTypes.Proofs.DecimalTexts
import ApiTypes.Proofs.PlainObjects
import ApiTypes.Proofs.Spelling

/-!
Two ways to an object. A pointer can be followed through the tree of a document, by the keys of its
mappings and the positions in its sequences, or looked up in the index of what the document was
decoded to. In a plain document both lead to the same: at the end of the way through the tree
stands a node from which the object of the index can be decoded on its own.
-/

namespace ApiTypes

open Yaml

variable {α : Type} {tree : Tree}

/-! The way through the tree. -/

/-- Writing tokens as a pointer brings in no percent sign. -/
theorem Reference.percent_not_mem_pointerChars {tokens : List String}
    (h : ∀ token ∈ tokens, '%' ∉ token.toList) : '%' ∉ Reference.pointerChars tokens := by
  have hescape (c : Char) (hc : '%' ∈ Reference.escapeChar c) : c = '%' := by
    unfold Reference.escapeChar at hc
    split at hc
    · simp at hc
    · split at hc
      · simp at hc
      · exact (List.mem_singleton.mp hc).symm
  intro hmem
  obtain ⟨token, htoken, hchar⟩ := List.mem_flatMap.mp hmem
  rcases List.mem_cons.mp hchar with hslash | hescaped
  · cases hslash
  · obtain ⟨c, hc, hin⟩ := List.mem_flatMap.mp hescaped
    exact h token htoken (hescape c hin ▸ hc)

/-- No key of a plain mapping has a percent sign in its text. -/
theorem percent_not_mem_keyText {entry : Node × Node} (h : PlainEntry entry) :
    '%' ∉ entry.1.keyText.toList := by
  obtain ⟨key, node⟩ := entry
  match key, h.key, h.keyNode with
  | .scalar line tag value, hkey, _ =>
    have hvalue := (Bool.and_eq_true_iff.mp hkey).2
    simpa [Node.keyText] using hvalue
  | .sequence .., _, _ => exact List.not_mem_nil
  | .mapping .., _, _ => exact List.not_mem_nil

/-- The first entry with the text of a key is the only one. -/
theorem find?_keyText {entries : List (Node × Node)}
    (hkeys : (entries.map (·.1.keyText)).Nodup) {entry : Node × Node} (h : entry ∈ entries) :
    entries.find? (·.1.keyText == entry.1.keyText) = some entry := by
  induction entries with
  | nil => cases h
  | cons first rest ih =>
    obtain ⟨hfirst, hrest⟩ := List.nodup_cons.mp hkeys
    rcases List.mem_cons.mp h with rfl | hmem
    · simp
    · have hne : first.1.keyText ≠ entry.1.keyText :=
        fun heq => hfirst (List.mem_map.mpr ⟨entry, hmem, heq.symm⟩)
      rw [List.find?_cons_of_neg (by simpa using hne)]
      exact ih hrest hmem

theorem percent_not_mem_of_leads {node last : Node} {tokens : List String}
    (h : node.Leads tokens last) (hplain : node.isPlain) :
    ∀ token ∈ tokens, '%' ∉ token.toList := by
  induction h with
  | here => exact List.forall_mem_nil _
  | @key node next last name rest hentry _ ih =>
    refine List.forall_mem_cons.mpr ⟨?_, ih (hentry.plain hplain)⟩
    obtain ⟨key, hmem, rfl⟩ := hentry
    match node, hplain with
    | .mapping .., hplain => exact percent_not_mem_keyText ((isPlain_mapping.mp hplain).2 _ hmem)
  | position hitem _ ih =>
    refine List.forall_mem_cons.mpr ⟨fun hmem => ?_, ih (Node.isPlain_of_item hitem hplain)⟩
    exact absurd (isDigit_of_mem_toString hmem) (by decide)

theorem unalias_of_plain {node : Node} (h : node.isPlain) (collections : Collections) :
    collections.unalias node = node := by
  match node, h with
  | .scalar .., _ => rfl
  | .sequence .., _ => rfl
  | .mapping .., _ => rfl

theorem descend_entry {node next : Node} {name : String} (hentry : node.HasEntry name next)
    (hplain : node.isPlain) (ref : String) (collections : Collections) (rest : List String) :
    descend ref collections node (name :: rest) = descend ref collections next rest := by
  have hnext := hentry.plain hplain
  obtain ⟨key, hmem, rfl⟩ := hentry
  cases node with
  | mapping line tag entries =>
    rw [descend, find?_keyText (isPlain_mapping.mp hplain).1 hmem]
    dsimp only
    rw [unalias_of_plain hnext]
  | _ => cases hmem

theorem descend_item {node next : Node} {i : Nat} (hitem : node.items[i]? = some next)
    (hplain : node.isPlain) (ref : String) (collections : Collections) (rest : List String) :
    descend ref collections node (toString i :: rest) = descend ref collections next rest := by
  have hnext := Node.isPlain_of_item hitem hplain
  cases node with
  | sequence line tag items =>
    have hlength := (isPlain_sequence.mp hplain).1
    have hi : i < items.length := (List.getElem?_eq_some_iff.mp hitem).1
    have hfound : ((decimalInt? (toString i).toList).bind fun i =>
        if i < 0 then none else items[i.toNat]?) = some next := by
      rw [decimalInt?_toString (by omega)]
      exact hitem
    rw [descend, hfound]
    dsimp only
    rw [unalias_of_plain hnext]
  | _ => cases hitem

/-- A plain document is descended along the tokens that lead down it. -/
theorem descend_of_leads {node last : Node} {tokens : List String} (h : node.Leads tokens last)
    (hplain : node.isPlain) (ref : String) (collections : Collections) :
    descend ref collections node tokens = .ok last := by
  induction h with
  | here => rw [descend]
  | key hentry _ ih =>
    rw [descend_entry hentry hplain]
    exact ih (hentry.plain hplain)
  | position hitem _ ih =>
    rw [descend_item hitem hplain]
    exact ih (Node.isPlain_of_item hitem hplain)

/-- Reads a node as what the object is: like a reference to another document, for what such a
reference can name. -/
def Object.reread (tree : Tree) (node : Node) : Object → Except DecodeError Object
  | .schema _ => decodeObject .schema tree node
  | .parameter _ => decodeObject .parameter tree node
  | .requestBody _ => decodeObject .requestBody tree node
  | .response _ => decodeObject .response tree node
  | .header _ => decodeObject .header tree node
  | .pathItem _ => decodeObject .pathItem tree node
  | .mediaType _ =>
    ((Decode.visit node MediaType.decoder).run tree).map fun m => .mediaType (m.getD {})
  | .operation _ =>
    ((Decode.visit node Operation.decoder).run tree).map fun o => .operation (o.getD {})

/-- What has been decoded without a problem at some place is decoded so on its own. -/
theorem Reads.run {decode : Decoder α} {node : Node} {x : α} (h : Reads tree decode node x)
    (hplain : node.isPlain) : (Decode.visit node decode).run tree = .ok (some x) :=
  (Decode.Ends.visit hplain h).run

theorem Object.ReadFrom.reread {o : Object} {node : Node} (h : o.ReadFrom tree node)
    (hplain : node.isPlain) (hnull : node.isNull = false) : o.reread tree node = .ok o := by
  cases o with
  | schema s =>
    have hreads : Reads tree Schema.ontoEmpty node s := by
      unfold Reads Schema.ontoEmpty
      rw [hnull]
      exact h
    simp only [Object.reread, decodeObject, hreads.run hplain, Except.map, Option.getD_some]
  | _ => simp only [Object.reread, decodeObject, Reads.run h hplain, Except.map, Option.getD_some]

theorem lookupFragment_join {tree : Tree} {node : Node} {tokens : List String}
    (hplain : tree.root.isPlain) (hleads : tree.root.Leads tokens node) (ref : String) :
    lookupFragment ref tree (Reference.split (Reference.join "#" tokens)).2 = .ok node := by
  have hfragment : (Reference.split (Reference.join "#" tokens)).2 =
      String.ofList (Reference.pointerChars tokens) := by
    have hsplit : Reference.split ("" ++ Reference.join "#" tokens) = _ :=
      Reference.split_join List.not_mem_nil tokens
    rw [String.empty_append] at hsplit
    rw [hsplit]
  have hpercent := Reference.percent_not_mem_pointerChars (percent_not_mem_of_leads hleads hplain)
  have hdecode : Reference.decodeFragment (String.ofList (Reference.pointerChars tokens)) =
      String.ofList (Reference.pointerChars tokens) := by
    simp [Reference.decodeFragment, Text.percentDecode?, hpercent]
  rw [hfragment, lookupFragment, hdecode, Reference.pointerTokens_of_tokens]
  exact descend_of_leads hleads hplain ref tree.collections

/-- The two ways to an object agree. In a plain document, whatever the index of what it was decoded
to has at a pointer can be decoded from the node that the fragment of the pointer leads to. -/
theorem reread_of_mem_index {tree : Tree} {found : Option Document} {place : String} {o : Object}
    (hplain : tree.root.isPlain)
    (hdecoded : (Decode.visit tree.root (record "openapi.Document" Document.fields {})).run tree =
      .ok found)
    (hindexed : (place, o) ∈ Index.ofDocument (found.getD {})) (ref : String) :
    ∃ node, lookupFragment ref tree (Reference.split place).2 = .ok node ∧
      o.reread tree node = .ok o := by
  obtain ⟨tokens, hhas, rfl⟩ := Index.mem_ofDocument.mp hindexed
  obtain ⟨node, hleads, hnull, hread⟩ := hhas.node hplain hdecoded
  exact ⟨node, lookupFragment_join hplain hleads ref,
    hread.reread (hleads.plain hplain) hnull⟩

/-- A document in which a name has a slash and a list of schemas starts with null. -/
def pairTree : Tree where
  root :=
    let text (s : String) : Node := .scalar 1 "!!str" s
    let mapping (name : String) (node : Node) : Node := .mapping 1 "!!map" [(text name, node)]
    let schemas : Node := mapping "schemas" (mapping "a/b" (mapping "prefixItems"
      (.sequence 1 "!!seq" [.scalar 1 "!!null" "null", .scalar 1 "!!bool" "true"])))
    .mapping 1 "!!map" [(text "openapi", text "3.1.0"), (text "components", schemas)]
  collections := []
  reach := 9

theorem reread_pairTree :
    pairTree.root.isPlain ∧ ∃ found,
      (Decode.visit pairTree.root (record "openapi.Document" Document.fields {})).run pairTree =
        .ok found ∧
      ∃ o, (Reference.join "#" ["components", "schemas", "a/b", "prefixItems", "1"], o) ∈
        Index.ofDocument (found.getD {}) ∧
      ∃ node, lookupFragment "" pairTree (Reference.split
          (Reference.join "#" ["components", "schemas", "a/b", "prefixItems", "1"])).2 = .ok node ∧
        o.reread pairTree node = .ok o := by
  have hplain : pairTree.root.isPlain := by decide
  have hok : ((Decode.visit pairTree.root (record "openapi.Document" Document.fields {})).run
      pairTree).toOption.any fun found => (found.getD {}).branches.any fun branch =>
        branch.1 == ["components", "schemas", "a/b"] &&
          branch.2.branches.any (·.1 == ["prefixItems", "1"]) := by
    decide +kernel
  cases hrun : (Decode.visit pairTree.root (record "openapi.Document" Document.fields {})).run
      pairTree with
  | error problem =>
    rw [hrun] at hok
    cases hok
  | ok found =>
    rw [hrun] at hok
    obtain ⟨⟨way, root⟩, hroot, hnext⟩ := List.any_eq_true.mp hok
    obtain ⟨hway, hbranch⟩ := Bool.and_eq_true_iff.mp hnext
    obtain ⟨⟨rest, o⟩, ho, hrest⟩ := List.any_eq_true.mp hbranch
    obtain rfl : way = ["components", "schemas", "a/b"] := eq_of_beq hway
    obtain rfl : rest = ["prefixItems", "1"] := eq_of_beq hrest
    have hindexed := Index.mem_ofDocument.mpr
      ⟨_, ⟨_, root, _, hroot, .down ho (.here o), rfl⟩, rfl⟩
    exact ⟨hplain, found, rfl, o, hindexed, reread_of_mem_index hplain hrun hindexed ""⟩

end ApiTypes
