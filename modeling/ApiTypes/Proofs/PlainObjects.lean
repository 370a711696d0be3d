import ApiTypes.Document.Decode
import ApiTypes.Proofs.Addresses
import ApiTypes.Proofs.PlainRecords

/-!
Objects in plain documents. Each object inside another one has been decoded from a node below the
node of the other, at the end of the way to the object, and can be decoded from that node on its
own.
-/

namespace ApiTypes.Yaml

variable {α β : Type} {tree : Tree}

/-- The tokens lead down from a node, by the keys of mappings and the positions in sequences. -/
inductive Node.Leads : Node → List String → Node → Prop where
  | here (node : Node) : Leads node [] node
  | key {node next last : Node} {name : String} {rest : List String} :
    node.HasEntry name next → Leads next rest last → Leads node (name :: rest) last
  | position {node next last : Node} {i : Nat} {rest : List String} :
    node.items[i]? = some next → Leads next rest last → Leads node (toString i :: rest) last

namespace Node

theorem Leads.trans {first second third : Node} {way more : List String}
    (h : first.Leads way second) (h' : second.Leads more third) :
    first.Leads (way ++ more) third := by
  induction h with
  | here => exact h'
  | key hentry _ ih => exact .key hentry (ih h')
  | position hitem _ ih => exact .position hitem (ih h')

theorem HasEntry.leads {node value : Node} {name : String} (h : node.HasEntry name value) :
    node.Leads [name] value := .key h (.here value)

theorem HasEntry.plain {node value : Node} {name : String} (h : node.HasEntry name value)
    (hplain : node.isPlain) : value.isPlain := by
  obtain ⟨key, hmem, -⟩ := h
  match node, hplain with
  | .mapping .., hplain => exact ((isPlain_mapping.mp hplain).2 _ hmem).node

theorem isPlain_of_item {node item : Node} {i : Nat} (h : node.items[i]? = some item)
    (hplain : node.isPlain) : item.isPlain := by
  match node, hplain with
  | .sequence .., hplain => exact (isPlain_sequence.mp hplain).2 _ (List.mem_of_getElem? h)

theorem Leads.plain {node last : Node} {tokens : List String} (h : node.Leads tokens last)
    (hplain : node.isPlain) : last.isPlain := by
  induction h with
  | here => exact hplain
  | key hentry _ ih => exact ih (hentry.plain hplain)
  | position hitem _ ih => exact ih (isPlain_of_item hitem hplain)

end Node

end ApiTypes.Yaml

namespace ApiTypes

open Yaml

/-! What stands at the end of a way. -/

variable {α β σ : Type} {tree : Tree}

/-- The node can be decoded on its own, and gives the value. -/
def Reads (tree : Tree) (decode : Decoder α) (node : Node) (x : α) : Prop :=
  Decode.Ends tree (decode node) (some x) []

theorem Yaml.Decoder.Matches.reads {decode decode' : Decoder α} {post : Node → α → Prop}
    (h : Decoder.Matches tree decode decode' post) :
    Decoder.Matches tree decode decode' (Reads tree decode) := by
  refine fun node hplain => ((h node hplain).and (h node hplain).ending).weaken ?_
  rintro found ⟨hfound, hends⟩
  refine ⟨hfound.null, ?_⟩
  rintro x rfl
  exact hends

/-- What is there stands at the end of its way from the node, where it is not null. -/
def Placed (post : Node → α → Prop) (node : Node) (list : List (List String × Option α)) : Prop :=
  ∀ way x, (way, some x) ∈ list → ∃ below, node.Leads way below ∧ below.isNull = false ∧
    post below x

section Ways

variable {post : Node → α → Prop} {node : Node}

theorem Placed.nil : Placed post node [] := nofun

theorem Placed.append {list list' : List (List String × Option α)} (h : Placed post node list)
    (h' : Placed post node list') : Placed post node (list ++ list') :=
  fun way x hmem => (List.mem_append.mp hmem).elim (h way x) (h' way x)

theorem Placed.single_none (way : List String) : Placed post node [(way, none)] := by
  intro _ x hmem
  cases (Prod.mk.inj (List.mem_singleton.mp hmem)).2

variable {decode decode' : Decoder α} {name : String}

/-- The value of a field stands under the name of the field. -/
theorem placed_single {parent : Node} {keyword : String} (hentry : parent.HasEntry keyword node)
    {found : Option α} (h : IfAny (fun x => node.isNull = false ∧ post node x) found) :
    Placed post parent [([keyword], found)] := by
  intro way x hmem
  obtain ⟨rfl, rfl⟩ := Prod.mk.inj (List.mem_singleton.mp hmem)
  exact ⟨node, hentry.leads, h x rfl⟩

/-- What stands in a map, below whatever keyword the map itself stands. -/
theorem objectMap_matches (name : String) (h : Decoder.Matches tree decode decode' post) :
    Decoder.Matches tree (objectMap name decode) (objectMap name decode') fun node m =>
      ∀ parent keyword, Node.HasEntry parent keyword node →
        Placed post parent (named keyword m) := by
  refine (optional_matches _ (ordered_matches (optional_matches _ h))).weaken ?_
  intro node m hm parent keyword hentry way x hmem
  obtain ⟨⟨name, x⟩, hmem, heq⟩ := List.mem_map.mp hmem
  obtain ⟨rfl, rfl⟩ := Prod.mk.inj heq
  cases m with
  | none => cases hmem
  | some m =>
    obtain ⟨-, hentries⟩ := hm m rfl
    obtain ⟨below, found, hbelow, hfound, hx⟩ := hentries _ hmem
    cases found with
    | none => cases hx
    | some found =>
      obtain rfl : some x = found := hx
      exact ⟨below, .key hentry hbelow.leads, hfound.value _ rfl x rfl⟩

theorem objectList_matches (name : String) (h : Decoder.Matches tree decode decode' post) :
    Decoder.Matches tree (objectList name decode) (objectList name decode') fun node list =>
      ∀ parent keyword, Node.HasEntry parent keyword node →
        Placed post parent (positioned keyword list) := by
  refine (members_matches _ _ h).weaken ?_
  intro node list hlist parent keyword hentry way x hmem
  obtain ⟨⟨x, i⟩, hmem, heq⟩ := List.mem_map.mp hmem
  obtain ⟨rfl, rfl⟩ := Prod.mk.inj heq
  cases list with
  | none => cases hmem
  | some list =>
    have hi : list[i]? = some (some x) := List.mem_zipIdx_iff_getElem?.mp hmem
    obtain ⟨hi, hx⟩ := List.getElem?_eq_some_iff.mp hi
    obtain ⟨hlength, hitems⟩ := List.forall₂_iff_get.mp (hlist _ rfl)
    have hbound : i < node.items.length := hlength ▸ hi
    exact ⟨node.items[i], .key hentry (.position (List.getElem?_eq_getElem hbound) (.here _)),
      hitems i hbound hi x hx⟩

/-- A field whose value is placed below it. -/
theorem setField_matches_placed {γ : Type} {decode decode' : Decoder γ} {set : σ → γ → σ}
    {inv : σ → Prop} {ways : String → γ → List (List String × Option α)}
    (h : Decoder.Matches tree decode decode' fun node x =>
      ∀ parent keyword, Node.HasEntry parent keyword node → Placed post parent (ways keyword x))
    (hset : ∀ value x, Placed post node (ways name x) → inv value → inv (set value x)) :
    RecordField.Matches tree node inv (setField name decode set) (setField name decode' set) :=
  setField_matches h fun value _ x hentry hx => hset value x (hx node name hentry)

theorem optionalObject_matches (name : String) (h : Decoder.Matches tree decode decode' post) :
    Decoder.Matches tree (optionalObject name decode) (optionalObject name decode') fun node x =>
      ∀ parent keyword, Node.HasEntry parent keyword node → Placed post parent [([keyword], x)] :=
  (optional_matches _ h).weaken fun _ _ hx _ _ hentry => placed_single hentry hx

end Ways

/-! Schemas. -/

theorem Discriminator.decoder_calm : Decoder.Calm tree Discriminator.decoder := by
  refine record_matches _ (fun _ => List.forall₂_same.mpr ?_) fun _ => trivial
  unfold Discriminator.fields
  simp only [List.forall_mem_cons]
  and_intros
  · exact setField_matches_aside text_calm fun _ _ => id
  · exact setField_matches_aside (optional_matches _ (ordered_matches text_calm)) fun _ _ => id
  · exact List.forall_mem_nil _

namespace Schema

theorem decodeTypes_calm : Decoder.Calm tree decodeTypes := by
  intro node hplain
  unfold decodeTypes
  split
  · exact ((sequence_matches _ text_calm).weaken fun _ _ _ => trivial) node hplain
  · split
    · exact .pure (.some trivial)
    · exact .throw (by trivial)
    · exact .absorb (.visit hplain (texts_calm _ hplain))

/-- The schemas below a schema are placed. -/
structure PartsPlaced (tree : Tree) (node : Node) (s : Schema) : Prop where
  properties : Placed (Reads tree decoder) node (named "properties" s.properties)
  additionalProperties : Placed (Reads tree decoder) node
    [(["additionalProperties"], s.additionalProperties)]
  defs : Placed (Reads tree decoder) node (named "$defs" s.defs)
  items : Placed (Reads tree decoder) node (itemChildren s.items)
  prefixItems : Placed (Reads tree decoder) node (positioned "prefixItems" s.prefixItems)
  allOf : Placed (Reads tree decoder) node (positioned "allOf" s.allOf)
  oneOf : Placed (Reads tree decoder) node (positioned "oneOf" s.oneOf)
  anyOf : Placed (Reads tree decoder) node (positioned "anyOf" s.anyOf)

theorem PartsPlaced.empty {node : Node} (b : Option Bool) : PartsPlaced tree node { bool := b } :=
  ⟨nofun, .single_none _, nofun, nofun, nofun, nofun, nofun, nofun⟩

theorem PartsPlaced.children {node : Node} {s : Schema} (h : PartsPlaced tree node s) :
    Placed (Reads tree decoder) node s.children := by
  unfold Schema.children
  split
  · exact .nil
  · refine ((((((h.properties.append ?_).append h.defs).append h.items).append
      h.prefixItems).append h.allOf).append h.oneOf).append h.anyOf
    intro way x hmem
    obtain ⟨t, ht, heq⟩ := List.mem_map.mp hmem
    cases heq
    rw [Option.mem_toList] at ht
    exact h.additionalProperties _ x (List.mem_singleton.mpr (by rw [ht]))

/-- The field of what stands for the elements of an array, whatever decodes its values. -/
theorem items_matches {node : Node} {items items' : Decoder (Items Schema)}
    (h : Decoder.Matches tree items items' fun below x => below.isNull = false →
      node.HasEntry "items" below → Placed (Reads tree decoder) node (itemChildren (some x))) :
    RecordField.Matches tree node (PartsPlaced tree node)
      (setField "items" (optionalObject "Items" items) fun s x => { s with items := x })
      (setField "items" (optionalObject "Items" items') fun s x => { s with items := x }) := by
  refine setField_matches (optional_matches _ h) fun s below x hentry hx hs =>
    { hs with items := ?_ }
  cases x with
  | none => exact .nil
  | some x =>
    obtain ⟨hnull, hplaced⟩ := hx x rfl
    exact hplaced hnull hentry

theorem fields_matches {node : Node} {decode decode' : Decoder Schema}
    (h : Decoder.Matches tree decode decode' (Reads tree decoder)) :
    List.Forall₂ (RecordField.Matches tree node (PartsPlaced tree node)) (fields decode)
      (fields decode') := by
  have hchild := optionalObject_matches "Schema" h
  have hmap := objectMap_matches "Schema" h
  have hlist := objectList_matches "Schema" h
  unfold fields
  simp only [List.forall₂_cons]
  and_intros
  all_goals try exact setField_matches_aside text_calm fun _ _ hs => { hs with }
  all_goals try exact setField_matches_aside flag_calm fun _ _ hs => { hs with }
  all_goals try exact setField_matches_aside free_calm fun _ _ hs => { hs with }
  · exact setField_matches_aside decodeTypes_calm fun _ _ hs => { hs with }
  · exact setField_matches_aside freeList_calm fun _ _ hs => { hs with }
  · exact setField_matches_placed hmap fun _ _ hx hs => { hs with properties := hx }
  · exact setField_matches_aside texts_calm fun _ _ hs => { hs with }
  · exact setField_matches_placed hchild fun _ _ hx hs => { hs with additionalProperties := hx }
  · exact setField_matches_placed hmap fun _ _ hx hs => { hs with defs := hx }
  · refine items_matches fun below hplain => ?_
    split
    · refine .bind (.absorb (.visit hplain (hlist _ hplain))) fun found => .pure fun hfound => ?_
      cases found with
      | none => exact .none (hfound.null rfl)
      | some list => exact .some fun _ hentry => hfound.value list rfl node "items" hentry
    · refine .bind (.absorb (.visit hplain (h _ hplain))) fun found => .pure fun hfound => ?_
      cases found with
      | none => exact .none (hfound.null rfl)
      | some s => exact .some fun hnull hentry =>
          placed_single hentry (.some ⟨hnull, hfound.value s rfl⟩)
  · exact setField_matches_placed hlist fun _ _ hx hs => { hs with prefixItems := hx }
  · exact setField_matches_aside (optional_matches _ (scalar_calm _ _ _)) fun _ _ hs =>
      { hs with }
  · exact setField_matches_aside (optional_matches _ (scalar_calm _ _ _)) fun _ _ hs =>
      { hs with }
  · exact setField_matches_placed hlist fun _ _ hx hs => { hs with allOf := hx }
  · exact setField_matches_placed hlist fun _ _ hx hs => { hs with oneOf := hx }
  · exact setField_matches_placed hlist fun _ _ hx hs => { hs with anyOf := hx }
  · exact setField_matches_aside (optional_matches _ Discriminator.decoder_calm) fun _ _ hs =>
      { hs with }
  · exact .nil

/-- Looking at the keys of a schema changes flags and extensions only. -/
theorem notePresence_keeps {inv : Schema → Prop}
    (hinv : ∀ s hasConst hasDefault hasSample extensions, inv s →
      inv { s with hasConst, hasDefault, hasSample, extensions })
    {tree : Tree} {entries : List (Node × Node)} {s t : Schema}
    (hnote : notePresence tree s entries = .ok t) (h : inv s) : inv t := by
  induction entries generalizing s with
  | nil =>
    cases hnote
    exact h
  | cons entry rest ih =>
    obtain ⟨key, value⟩ := entry
    unfold notePresence at hnote
    dsimp only at hnote
    split at hnote
    · exact ih hnote (hinv s _ _ _ _ h)
    · split at hnote
      · exact ih hnote (hinv s _ _ _ _ h)
      · split at hnote
        · exact ih hnote (hinv s _ _ _ _ h)
        · split at hnote
          · split at hnote
            · exact ih hnote (hinv s _ _ _ _ h)
            · cases hnote
          · exact ih hnote h

theorem notePresence_fault {s : Schema} {entries : List (Node × Node)} {e : DecodeError}
    (h : notePresence tree s entries = .error e) : e.IsFault := by
  induction entries generalizing s with
  | nil => cases h
  | cons entry rest ih =>
    obtain ⟨key, value⟩ := entry
    unfold notePresence at h
    dsimp only at h
    split at h
    · exact ih h
    · split at h
      · exact ih h
      · split at h
        · exact ih h
        · split at h
          · split at h
            · exact ih h
            · cases h
              trivial
          · exact ih h

/-- A decoder of schemas gives what a decoder that may go further down gives, and what is below a
schema can be decoded on its own. -/
theorem decodeWithin_matches {steps more : Nat} (hsteps : steps ≤ more)
    (hmore : more ≤ tree.reach) :
    Decoder.Matches tree (decodeWithin steps) (decodeWithin more) fun node s =>
      Placed (Reads tree decoder) node s.children := by
  induction steps generalizing more with
  | zero => exact fun _ _ => .throw (by trivial)
  | succ steps ih =>
    obtain ⟨more, rfl⟩ := Nat.exists_eq_add_of_le' (Nat.one_le_of_lt hsteps)
    have hbelow : Decoder.Matches tree (decodeWithin steps) (decodeWithin more)
        (Reads tree decoder) := by
      have hless : steps ≤ more := by omega
      have hreach := ih (Nat.le_trans hless (Nat.le_of_succ_le hmore)) (Nat.le_refl tree.reach)
      refine fun node hplain => ((ih hless (Nat.le_of_succ_le hmore)).reads node hplain).weaken
        fun found hfound => ⟨hfound.null, fun x hx => ?_⟩
      exact Decode.Ends.bind (f := fun tree => decodeWithin tree.reach node) .read
        ((hreach node hplain).ends (hfound.value x hx)).1
    intro node hplain
    match node, hplain with
    | .scalar line tag value, _ =>
      unfold decodeWithin
      refine .reading ?_
      split
      · exact .pure (.some (PartsPlaced.empty _).children)
      · exact .throw (by trivial)
    | .sequence .., _ => exact .throw (by trivial)
    | .mapping line tag entries, hplain =>
      unfold decodeWithin
      refine .bind (.absorb (.visit hplain (record_matches _ (fun _ => fields_matches hbelow)
        (fun _ => .empty none) _ hplain))) fun found => ?_
      cases found with
      | none => exact .pure fun hfound => .none (hfound.null rfl)
      | some s =>
        refine .reading ?_
        split
        · rename_i t hnote
          exact .pure fun hfound =>
            .some (notePresence_keeps (fun _ _ _ _ _ hs => { hs with }) hnote
              (hfound.value s rfl)).children
        · rename_i hfault
          exact .throw (notePresence_fault hfault)

theorem decoder_matches : Decoder.Matches tree decoder decoder fun node s =>
    Placed (Reads tree decoder) node s.children :=
  fun node hplain => .reading (decodeWithin_matches (Nat.le_refl _) (Nat.le_refl _) node hplain)

end Schema

/-! Objects. -/

/-- The node can be decoded on its own as what the object is, and gives the object. -/
def Object.ReadFrom (tree : Tree) (node : Node) : Object → Prop
  | .schema s => Reads tree Schema.decoder node s
  | .parameter p => Reads tree Parameter.decoder node p
  | .requestBody b => Reads tree RequestBody.decoder node b
  | .response r => Reads tree Response.decoder node r
  | .header h => Reads tree Header.decoder node h
  | .mediaType m => Reads tree MediaType.decoder node m
  | .pathItem item => Reads tree PathItem.decoder node item
  | .operation o => Reads tree Operation.decoder node o

/-- Each object can be decoded from what stands at the end of its way from the node. -/
def ObjectsPlaced (tree : Tree) (node : Node) (roots : List (List String × Object)) : Prop :=
  ∀ way o, (way, o) ∈ roots → ∃ below, node.Leads way below ∧ below.isNull = false ∧
    o.ReadFrom tree below

section Objects

variable {node : Node}

theorem ObjectsPlaced.append {roots others : List (List String × Object)}
    (h : ObjectsPlaced tree node roots) (h' : ObjectsPlaced tree node others) :
    ObjectsPlaced tree node (roots ++ others) :=
  fun way o hmem => (List.mem_append.mp hmem).elim (h way o) (h' way o)

theorem objectsPlaced_present (wrap : α → Object) {list : List (List String × Option α)}
    (h : Placed (fun below x => (wrap x).ReadFrom tree below) node list) :
    ObjectsPlaced tree node (present wrap list) := by
  intro way o hmem
  obtain ⟨⟨way, x⟩, hsource, hmem⟩ := List.mem_flatMap.mp hmem
  obtain ⟨x, hx, heq⟩ := List.mem_map.mp hmem
  cases heq
  rw [Option.mem_toList] at hx
  exact h _ x (hx ▸ hsource)

/-- What has been decoded without a problem has the property that its decoder gives. -/
theorem Reads.post {decode decode' : Decoder α} {post : Node → α → Prop} {x : α}
    (h : Reads tree decode node x) (hdecode : Decoder.Matches tree decode decode' post)
    (hplain : node.isPlain) : post node x :=
  (((hdecode node hplain).ends h).2 rfl).value x rfl

theorem schemaField_matches : Decoder.Matches tree (optionalObject "Schema" Schema.decoder)
    (optionalObject "Schema" Schema.decoder) fun node x =>
      ∀ parent keyword, Node.HasEntry parent keyword node →
        Placed (Reads tree Schema.decoder) parent [([keyword], x)] :=
  optionalObject_matches "Schema" Schema.decoder_matches.reads

theorem MediaType.decoder_matches : Decoder.Matches tree MediaType.decoder MediaType.decoder
    fun node m => Placed (Reads tree Schema.decoder) node [(["schema"], m.schema)] := by
  refine record_matches _ (fun node => List.forall₂_same.mpr ?_) fun _ => .single_none _
  unfold MediaType.fields
  simp only [List.forall_mem_cons]
  and_intros
  · exact setField_matches_aside text_calm fun _ _ h => h
  · exact setField_matches_placed schemaField_matches fun _ _ hx _ => hx
  · exact setField_matches_aside free_calm fun _ _ h => h
  · exact List.forall_mem_nil _

theorem decodeContent_matches : Decoder.Matches tree decodeContent decodeContent
    fun node content => ∀ parent keyword, Node.HasEntry parent keyword node →
      Placed (Reads tree MediaType.decoder) parent (named keyword content) :=
  objectMap_matches "MediaType" MediaType.decoder_matches.reads

/-- What headers and parameters have below them. -/
structure DescriptionPlaced (tree : Tree) (node : Node) (schema : Option Schema)
    (content : Content) : Prop where
  schema : Placed (Reads tree Schema.decoder) node [(["schema"], schema)]
  content : Placed (Reads tree MediaType.decoder) node (named "content" content)

theorem DescriptionPlaced.empty : DescriptionPlaced tree node none none := ⟨.single_none _, nofun⟩

theorem Header.decoder_matches : Decoder.Matches tree Header.decoder Header.decoder
    fun node h => DescriptionPlaced tree node h.schema h.content := by
  refine record_matches _ (fun node => List.forall₂_same.mpr ?_) fun _ => .empty
  unfold Header.fields
  simp only [List.forall_mem_cons]
  and_intros
  all_goals try exact setField_matches_aside text_calm fun _ _ h => h
  all_goals try exact setField_matches_aside flag_calm fun _ _ h => h
  · exact setField_matches_placed schemaField_matches fun _ _ hx h => { h with schema := hx }
  · exact setField_matches_placed decodeContent_matches fun _ _ hx h => { h with content := hx }
  · exact List.forall_mem_nil _

theorem Parameter.decoder_matches : Decoder.Matches tree Parameter.decoder Parameter.decoder
    fun node p => DescriptionPlaced tree node p.schema p.content := by
  refine record_matches _ (fun node => List.forall₂_same.mpr ?_) fun _ => .empty
  unfold Parameter.fields
  simp only [List.forall_mem_cons]
  and_intros
  all_goals try exact setField_matches_aside text_calm fun _ _ h => h
  all_goals try exact setField_matches_aside flag_calm fun _ _ h => h
  · exact setField_matches_placed schemaField_matches fun _ _ hx h => { h with schema := hx }
  · exact setField_matches_placed decodeContent_matches fun _ _ hx h => { h with content := hx }
  · exact List.forall_mem_nil _

theorem decodeParameters_matches : Decoder.Matches tree decodeParameters decodeParameters
    fun node list => ∀ parent keyword, Node.HasEntry parent keyword node →
      Placed (Reads tree Parameter.decoder) parent (positioned keyword list) :=
  objectList_matches "Parameter" Parameter.decoder_matches.reads

theorem RequestBody.decoder_matches : Decoder.Matches tree RequestBody.decoder RequestBody.decoder
    fun node b => Placed (Reads tree MediaType.decoder) node (named "content" b.content) := by
  refine record_matches _ (fun node => List.forall₂_same.mpr ?_) fun _ => nofun
  unfold RequestBody.fields
  simp only [List.forall_mem_cons]
  and_intros
  all_goals try exact setField_matches_aside text_calm fun _ _ h => h
  all_goals try exact setField_matches_aside flag_calm fun _ _ h => h
  · exact setField_matches_placed decodeContent_matches fun _ _ hx _ => hx
  · exact List.forall_mem_nil _

theorem Response.decoder_matches : Decoder.Matches tree Response.decoder Response.decoder
    fun node r => Placed (Reads tree Header.decoder) node (named "headers" r.headers) ∧
      Placed (Reads tree MediaType.decoder) node (named "content" r.content) := by
  refine record_matches _ (fun node => List.forall₂_same.mpr ?_) fun _ => ⟨nofun, nofun⟩
  unfold Response.fields
  simp only [List.forall_mem_cons]
  and_intros
  all_goals try exact setField_matches_aside text_calm fun _ _ h => h
  · exact setField_matches_placed (objectMap_matches "Header" Header.decoder_matches.reads)
      fun _ _ hx h => ⟨hx, h.2⟩
  · exact setField_matches_placed decodeContent_matches fun _ _ hx h => ⟨h.1, hx⟩
  · exact List.forall_mem_nil _

/-- What an operation has below it. -/
structure OperationPlaced (tree : Tree) (node : Node) (o : Operation) : Prop where
  parameters : Placed (Reads tree Parameter.decoder) node (positioned "parameters" o.parameters)
  requestBody : Placed (Reads tree RequestBody.decoder) node [(["requestBody"], o.requestBody)]
  responses : Placed (Reads tree Response.decoder) node (named "responses" o.responses)

theorem Operation.decoder_matches : Decoder.Matches tree Operation.decoder Operation.decoder
    (OperationPlaced tree) := by
  refine record_matches _ (fun node => List.forall₂_same.mpr ?_)
    fun _ => ⟨nofun, .single_none _, nofun⟩
  unfold Operation.fields
  simp only [List.forall_mem_cons]
  and_intros
  all_goals try exact setField_matches_aside text_calm fun _ _ h => { h with }
  all_goals try exact setField_matches_aside flag_calm fun _ _ h => { h with }
  · exact setField_matches_aside texts_calm fun _ _ h => { h with }
  · exact setField_matches_placed decodeParameters_matches fun _ _ hx h =>
      { h with parameters := hx }
  · exact setField_matches_placed
      (optionalObject_matches "RequestBody" RequestBody.decoder_matches.reads)
      fun _ _ hx h => { h with requestBody := hx }
  · exact setField_matches_placed (objectMap_matches "Response" Response.decoder_matches.reads)
      fun _ _ hx h => { h with responses := hx }
  · exact List.forall_mem_nil _

/-- What a path item has below it. -/
structure PathItemPlaced (tree : Tree) (node : Node) (item : PathItem) : Prop where
  parameters : Placed (Reads tree Parameter.decoder) node (positioned "parameters" item.parameters)
  operations : ∀ method,
    Placed (Reads tree Operation.decoder) node [([method.name], item.operation? method)]

theorem PathItem.decoder_matches : Decoder.Matches tree PathItem.decoder PathItem.decoder
    (PathItemPlaced tree) := by
  refine record_matches _ (fun node => List.forall₂_same.mpr ?_)
    fun _ => ⟨nofun, fun _ => .single_none _⟩
  unfold PathItem.fields
  simp only [List.forall_mem_append, List.forall_mem_cons]
  and_intros
  all_goals try exact setField_matches_aside text_calm fun _ _ h => { h with }
  · exact setField_matches_placed decodeParameters_matches fun _ _ hx h =>
      { h with parameters := hx }
  · exact List.forall_mem_nil _
  · refine List.forall_mem_map.mpr fun method _ => ?_
    refine setField_matches_placed
      (optionalObject_matches "Operation" Operation.decoder_matches.reads) fun item o ho h => ?_
    refine ⟨h.parameters, fun other => ?_⟩
    rw [PathItem.operation?_setOperation]
    split
    · rename_i hother
      exact hother ▸ ho
    · exact h.operations other

theorem decodePathItems_matches : Decoder.Matches tree decodePathItems decodePathItems
    fun node items => ∀ parent keyword, Node.HasEntry parent keyword node →
      Placed (Reads tree PathItem.decoder) parent (named keyword items) :=
  objectMap_matches "PathItem" PathItem.decoder_matches.reads

theorem decodeSchemas_matches : Decoder.Matches tree decodeSchemas decodeSchemas
    fun node schemas => ∀ parent keyword, Node.HasEntry parent keyword node →
      Placed (Reads tree Schema.decoder) parent (named keyword schemas) :=
  objectMap_matches "Schema" Schema.decoder_matches.reads

/-- What the components have below them. -/
structure ComponentsPlaced (tree : Tree) (node : Node) (c : Components) : Prop where
  schemas : Placed (Reads tree Schema.decoder) node (named "schemas" c.schemas)
  responses : Placed (Reads tree Response.decoder) node (named "responses" c.responses)
  parameters : Placed (Reads tree Parameter.decoder) node (named "parameters" c.parameters)
  requestBodies : Placed (Reads tree RequestBody.decoder) node
    (named "requestBodies" c.requestBodies)
  headers : Placed (Reads tree Header.decoder) node (named "headers" c.headers)
  pathItems : Placed (Reads tree PathItem.decoder) node (named "pathItems" c.pathItems)

theorem Components.decoder_matches : Decoder.Matches tree Components.decoder Components.decoder
    (ComponentsPlaced tree) := by
  refine record_matches _ (fun node => List.forall₂_same.mpr ?_)
    fun _ => ⟨nofun, nofun, nofun, nofun, nofun, nofun⟩
  unfold Components.fields
  simp only [List.forall_mem_cons]
  and_intros
  · exact setField_matches_placed decodeSchemas_matches fun _ _ hx h => { h with schemas := hx }
  · exact setField_matches_placed (objectMap_matches "Response" Response.decoder_matches.reads)
      fun _ _ hx h => { h with responses := hx }
  · exact setField_matches_placed (objectMap_matches "Parameter" Parameter.decoder_matches.reads)
      fun _ _ hx h => { h with parameters := hx }
  · exact setField_matches_placed
      (objectMap_matches "RequestBody" RequestBody.decoder_matches.reads)
      fun _ _ hx h => { h with requestBodies := hx }
  · exact setField_matches_placed (objectMap_matches "Header" Header.decoder_matches.reads)
      fun _ _ hx h => { h with headers := hx }
  · exact setField_matches_placed decodePathItems_matches fun _ _ hx h => { h with pathItems := hx }
  · exact List.forall_mem_nil _

theorem Info.decoder_calm : Decoder.Calm tree (record "openapi.Info" Info.fields {}) := by
  refine record_matches _ (fun _ => List.forall₂_same.mpr ?_) fun _ => trivial
  unfold Info.fields
  simp only [List.forall_mem_cons]
  and_intros
  all_goals try exact setField_matches_aside text_calm fun _ _ => id
  exact List.forall_mem_nil _

/-- What a document has below it. -/
structure DocumentPlaced (tree : Tree) (node : Node) (doc : Document) : Prop where
  components : Placed (ComponentsPlaced tree) node [(["components"], doc.components)]
  paths : Placed (Reads tree PathItem.decoder) node (named "paths" doc.paths)
  webhooks : Placed (Reads tree PathItem.decoder) node (named "webhooks" doc.webhooks)
  defs : Placed (Reads tree Schema.decoder) node (named "$defs" doc.defs)

theorem DocumentPlaced.empty {node : Node} : DocumentPlaced tree node {} :=
  ⟨.single_none _, nofun, nofun, nofun⟩

theorem Document.decoder_matches : Decoder.Matches tree
    (record "openapi.Document" Document.fields {}) (record "openapi.Document" Document.fields {})
    (DocumentPlaced tree) := by
  refine record_matches _ (fun node => List.forall₂_same.mpr ?_) fun _ => .empty
  unfold Document.fields
  simp only [List.forall_mem_cons]
  and_intros
  all_goals try exact setField_matches_aside text_calm fun _ _ h => { h with }
  · exact setField_matches_aside Info.decoder_calm fun _ _ h => { h with }
  · exact setField_matches_placed decodePathItems_matches fun _ _ hx h => { h with paths := hx }
  · exact setField_matches_placed decodePathItems_matches fun _ _ hx h => { h with webhooks := hx }
  · exact setField_matches_placed
      (optionalObject_matches "Components" Components.decoder_matches)
      fun _ _ hx h => { h with components := hx }
  · exact setField_matches_placed decodeSchemas_matches fun _ _ hx h => { h with defs := hx }
  · exact List.forall_mem_nil _

/-! The way to an object. -/

/-- What is directly inside an object can be decoded from what is below its node. -/
theorem Object.ReadFrom.branches {o : Object} (h : o.ReadFrom tree node) (hplain : node.isPlain) :
    ObjectsPlaced tree node o.branches := by
  cases o with
  | schema s =>
    have hs := Reads.post h Schema.decoder_matches hplain
    exact objectsPlaced_present .schema hs
  | parameter p =>
    have hp := Reads.post h Parameter.decoder_matches hplain
    exact (objectsPlaced_present .schema hp.schema).append
      (objectsPlaced_present .mediaType hp.content)
  | header r =>
    have hr := Reads.post h Header.decoder_matches hplain
    exact (objectsPlaced_present .schema hr.schema).append
      (objectsPlaced_present .mediaType hr.content)
  | requestBody b =>
    have hb := Reads.post h RequestBody.decoder_matches hplain
    exact objectsPlaced_present .mediaType hb
  | response r =>
    obtain ⟨hheaders, hcontent⟩ := Reads.post h Response.decoder_matches hplain
    exact (objectsPlaced_present .header hheaders).append
      (objectsPlaced_present .mediaType hcontent)
  | mediaType m =>
    have hm := Reads.post h MediaType.decoder_matches hplain
    exact objectsPlaced_present .schema hm
  | pathItem item =>
    have hitem := Reads.post h PathItem.decoder_matches hplain
    refine (objectsPlaced_present .parameter hitem.parameters).append fun way o hmem => ?_
    obtain ⟨⟨method, o⟩, hentry, heq⟩ := List.mem_map.mp hmem
    cases heq
    have ho := PathItem.mem_inOrder.mp hentry
    exact hitem.operations method _ o (by rw [ho]; exact List.mem_cons_self)
  | operation o =>
    have ho := Reads.post h Operation.decoder_matches hplain
    exact ((objectsPlaced_present .parameter ho.parameters).append
      (objectsPlaced_present .requestBody ho.requestBody)).append
      (objectsPlaced_present .response ho.responses)

/-- The same holds of all objects further down. -/
theorem Object.ReadFrom.leads {o last : Object} {way : List String} (h : o.ReadFrom tree node)
    (hplain : node.isPlain) (hnull : node.isNull = false) (hleads : o.Leads way last) :
    ∃ below, node.Leads way below ∧ below.isNull = false ∧ last.ReadFrom tree below := by
  induction hleads generalizing node with
  | here => exact ⟨node, .here node, hnull, h⟩
  | down hbranch _ ih =>
    obtain ⟨next, hway, hnext, hread⟩ := h.branches hplain _ _ hbranch
    obtain ⟨below, hrest, hbelow⟩ := ih hread (hway.plain hplain) hnext
    exact ⟨below, hway.trans hrest, hbelow⟩

theorem ComponentsPlaced.branches {c : Components} (h : ComponentsPlaced tree node c) :
    ObjectsPlaced tree node c.branches :=
  (((((objectsPlaced_present .schema h.schemas).append
    (objectsPlaced_present .response h.responses)).append
    (objectsPlaced_present .parameter h.parameters)).append
    (objectsPlaced_present .requestBody h.requestBodies)).append
    (objectsPlaced_present .header h.headers)).append
    (objectsPlaced_present .pathItem h.pathItems)

theorem DocumentPlaced.branches {doc : Document} (h : DocumentPlaced tree node doc) :
    ObjectsPlaced tree node doc.branches := by
  refine (ObjectsPlaced.append (.append ?_ (objectsPlaced_present .pathItem h.paths))
    (objectsPlaced_present .pathItem h.webhooks)).append (objectsPlaced_present .schema h.defs)
  cases hcomponents : doc.components with
  | none => exact nofun
  | some c =>
    obtain ⟨below, hbelow, -, hc⟩ :=
      h.components _ c (List.mem_singleton.mpr (by rw [hcomponents]))
    intro way o hmem
    obtain ⟨⟨way, o⟩, hmem, heq⟩ := List.mem_map.mp hmem
    cases heq
    obtain ⟨last, hway, hlast⟩ := hc.branches way o hmem
    exact ⟨last, hbelow.trans hway, hlast⟩

end Objects

/-- Every object of a document that has been decoded stands at a node of its own. -/
theorem Document.Has.node {tree : Tree} {found : Option Document} {tokens : List String}
    {o : Object} (hplain : tree.root.isPlain)
    (hdecoded : (Decode.visit tree.root (record "openapi.Document" Document.fields {})).run tree =
      .ok found) (hhas : (found.getD {}).Has tokens o) :
    ∃ node, tree.root.Leads tokens node ∧ node.isNull = false ∧ o.ReadFrom tree node := by
  have hdoc : DocumentPlaced tree tree.root (found.getD {}) := by
    have hfound := (Decode.Matches.of_run (.visit hplain
      (Document.decoder_matches tree.root hplain)) hdecoded).2
    cases found with
    | none => exact .empty
    | some doc => exact hfound.value doc rfl
  obtain ⟨way, root, rest, hroot, hleads, rfl⟩ := hhas
  obtain ⟨next, hway, hnull, hread⟩ := hdoc.branches way root hroot
  obtain ⟨node, hrest, hnode⟩ := hread.leads (hway.plain hplain) hnull hleads
  exact ⟨node, hway.trans hrest, hnode⟩

end ApiTypes
