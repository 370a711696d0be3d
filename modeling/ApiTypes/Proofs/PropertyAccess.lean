import ApiTypes.Proofs.ReferenceChains

/-!
Pointers to properties. On the way from a named schema down to a property, and to a property of
that, each name follows the word `properties`. The type of such a pointer is an access along the
names alone: every second token is left out, and it is always the word and never a name, also where
a name is the word itself.
-/

namespace ApiTypes.Reference

/-- The way down along properties, each one inside the one before. -/
def propertyWay (names : List String) : List String :=
  names.flatMap fun name => ["properties", name]

/-- A name behind the word is a key, whatever it is: the word has just been left out. -/
theorem indexTokens_property {depth position : Nat} (h : depth ≤ position) (t : TypeExpr)
    (name : String) (rest : List String) :
    indexTokens depth position false t ("properties" :: name :: rest) =
      indexTokens depth (position + 2) false (.access t (.ofText name)) rest := by
  have hword : ("properties" = "properties" && !false && decide (depth ≤ position)) = true := by
    simp [h]
  rw [indexTokens_cons, if_pos hword, indexTokens_cons, if_neg (by simp)]

/-- Before each word no token has just been left out. -/
theorem indexTokens_propertyWay {depth position : Nat} (h : depth ≤ position) (t : TypeExpr)
    (names : List String) :
    indexTokens depth position false t (propertyWay names) = t.index names := by
  induction names generalizing position t with
  | nil => rfl
  | cons name rest ih =>
    change indexTokens depth position false t ("properties" :: name :: propertyWay rest) = _
    rw [indexTokens_property h, ih (Nat.le_add_right_of_le h)]
    rfl

/-- The tokens before position `depth` are keys, also where one is the word. -/
theorem indexTokens_start {depth position : Nat} (start : List String)
    (h : position + start.length ≤ depth) (t : TypeExpr) (rest : List String) :
    indexTokens depth position false t (start ++ rest) =
      indexTokens depth (position + start.length) false (t.index start) rest := by
  induction start generalizing position t with
  | nil => rfl
  | cons token start ih =>
    rw [List.length_cons] at h
    have hkey : ¬ depth ≤ position := by omega
    rw [List.cons_append, indexTokens_cons, if_neg (by simp [hkey]), ih (by omega),
      List.length_cons, Nat.add_comm start.length, Nat.add_assoc]
    rfl

/-- Below a named schema the names of the properties are keys like those on the way to it. -/
theorem indexTokens_below (start names : List String) (t : TypeExpr) :
    indexTokens start.length 0 false t (start ++ propertyWay names) =
      t.index (start ++ names) := by
  have hdepth : 0 + start.length = start.length := Nat.zero_add _
  rw [indexTokens_start start (Nat.le_of_eq hdepth), hdepth,
    indexTokens_propertyWay (Nat.le_refl _)]
  exact List.foldl_append.symm

theorem toType_of_tokens {ref root : String} {rest : List String}
    (h : tokens? ref = some (root :: rest)) :
    toType ref = indexTokens (if root = "components" then 2 else 1) 0 false (.named root) rest := by
  unfold toType
  rw [h]

theorem tokens?_join_root {tokens : List String} (h : ∀ token ∈ tokens, '%' ∉ token.toList) :
    tokens? (join "#" tokens) = some tokens := by
  have hread := @tokens?_of_plain "" List.not_mem_nil _ (percent_not_mem_pointerChars h)
  rwa [String.empty_append] at hread

/-- A pointer to a property of a named schema stands for the access along the names. -/
theorem toType_property {name : String} {names : List String}
    (h : ∀ token ∈ name :: names, '%' ∉ token.toList) :
    toType (join "#" ("components" :: "schemas" :: name :: propertyWay names)) =
        .index (.named "components") ("schemas" :: name :: names) ∧
      toType (join "#" ("$defs" :: name :: propertyWay names)) =
        .index (.named "$defs") (name :: names) := by
  obtain ⟨hname, hnames⟩ := List.forall_mem_cons.mp h
  have hway : ∀ token ∈ name :: propertyWay names, '%' ∉ token.toList := by
    refine List.forall_mem_cons.mpr ⟨hname, fun token htoken => ?_⟩
    obtain ⟨property, hproperty, hmem⟩ := List.mem_flatMap.mp htoken
    rcases List.mem_cons.mp hmem with rfl | hlast
    · decide
    · exact List.mem_singleton.mp hlast ▸ hnames property hproperty
  constructor
  · have htokens : tokens? (join "#" ("components" :: "schemas" :: name :: propertyWay names)) =
        some ("components" :: "schemas" :: name :: propertyWay names) :=
      tokens?_join_root (List.forall_mem_cons.mpr ⟨by decide, List.forall_mem_cons.mpr
        ⟨by decide, hway⟩⟩)
    rw [toType_of_tokens htokens, if_pos rfl]
    exact indexTokens_below ["schemas", name] names _
  · have htokens : tokens? (join "#" ("$defs" :: name :: propertyWay names)) =
        some ("$defs" :: name :: propertyWay names) :=
      tokens?_join_root (List.forall_mem_cons.mpr ⟨by decide, hway⟩)
    rw [toType_of_tokens htokens, if_neg (by decide)]
    exact indexTokens_below [name] names _

/-- Names that are the word, empty, or have to be escaped. -/
theorem toType_property_words :
    (∀ token ∈ "properties" :: ["properties", "", "a/b~#"], '%' ∉ token.toList) ∧
      toType (join "#" ("components" :: "schemas" :: "properties" ::
          propertyWay ["properties", "", "a/b~#"])) =
        .index (.named "components") ("schemas" :: "properties" :: ["properties", "", "a/b~#"]) ∧
      toType (join "#" ("$defs" :: "properties" :: propertyWay ["properties", "", "a/b~#"])) =
        .index (.named "$defs") ("properties" :: ["properties", "", "a/b~#"]) := by
  have hplain : ∀ token ∈ "properties" :: ["properties", "", "a/b~#"], '%' ∉ token.toList := by
    decide
  exact ⟨hplain, toType_property hplain⟩

end ApiTypes.Reference
