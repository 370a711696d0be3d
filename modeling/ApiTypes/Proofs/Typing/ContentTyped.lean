import ApiTypes.Proofs.Typing.SchemaTyped

/-!
The types of media types, headers, request bodies and responses use only names that stand for
something, because they are made from objects that can be met.
-/

namespace ApiTypes.Typing

variable {α : Type} {w : Source} {σ : Setting} {p : Progress}

/-- The objects of a map can be met. -/
def Held (w : Source) (wrap : α → Object) (m : Option (OrderedMap (Option α))) : Prop :=
  ∀ name x, (name, some x) ∈ entriesOf m → w.Reaches (wrap x)

theorem Held.of_objects {wrap : α → Object} {m : Option (OrderedMap (Option α))}
    (h : ∀ o ∈ objectsOf wrap m, w.Reaches o) : Held w wrap m :=
  fun _ _ hmem => h _ (Index.mem_objectsOf hmem)

theorem met_of_parts {o : Object} (ho : w.Reaches o) {s : Option Schema}
    (hs : ∀ x, s = some x → .schema x ∈ o.parts) : Met w s :=
  fun x hx => .part ho (hs x hx)

theorem mediaTypeType_ensures (hσ : HookFree σ) {m : Option MediaType}
    (hm : ∀ x, m = some x → w.Reaches (.mediaType x)) (place : String) :
    Ensures w σ p (mediaTypeType m place) (Typed w) := by
  unfold mediaTypeType
  cases hschema : m.bind (·.schema) with
  | none => exact .pure (.keyword _)
  | some s =>
    obtain ⟨x, hx, hs⟩ := Option.bind_eq_some_iff.mp hschema
    apply schemaType_ensures hσ
    rintro t ⟨⟩
    exact .part (hm x hx) (by simp [Object.parts, hs])

theorem mediaTypeRefType_ensures (hσ : HookFree σ) {m : Option MediaType}
    (hm : ∀ x, m = some x → w.Reaches (.mediaType x)) (place : String) :
    Ensures w σ p (mediaTypeRefType m place) (Typed w) := by
  unfold mediaTypeRefType
  cases href : m.filter (·.ref ≠ "") with
  | none => exact mediaTypeType_ensures hσ hm place
  | some x =>
    have hasks : w.Asks x.ref := Source.Asks.held (hm x (Option.filter_eq_some_iff.mp href).1)
    exact schemaRefType_ensures hσ hasks place

/-- One member for each media type. -/
theorem contentMembers_ensures (hσ : HookFree σ) {content : Content}
    (hcontent : Held w .mediaType content) (place : String) :
    Ensures w σ p (contentMembers content place) fun q members =>
      ∀ m ∈ members, MemberTyped w q m := by
  unfold contentMembers
  apply Ensures.options_bind
  apply Ensures.entries_bind
  intro listed hlisted
  apply Ensures.mapM MemberTyped.stable
  rintro ⟨name, m⟩ hmem q _
  have hm : ∀ x, m = some x → w.Reaches (.mediaType x) := by
    rintro x rfl
    exact hcontent name x (hlisted.subset hmem)
  apply (mediaTypeRefType_ensures hσ hm _).bind
  intro r t _ ht
  exact .pure (.property ht)

theorem headerType_ensures (hσ : HookFree σ) {h : Header} (hh : w.Reaches (.header h))
    (place : String) : Ensures w σ p (headerType h place) (Typed w) := by
  unfold headerType
  split
  · exact schemaType_ensures hσ (met_of_parts hh fun x hx => by simp [Object.parts, hx]) place
  · split
    · have hcontent : Held w .mediaType h.content :=
        .of_objects fun o ho => .part hh (List.mem_append_right _ ho)
      apply (contentMembers_ensures hσ hcontent place).bind
      intro q members _ hmembers
      exact .pure (.object hmembers)
    · exact .pure (.keyword _)

theorem requestBodyType_ensures (hσ : HookFree σ) {b : RequestBody}
    (hb : w.Reaches (.requestBody b)) (place : String) :
    Ensures w σ p (requestBodyType b place) (Typed w) := by
  unfold requestBodyType
  split
  · exact .pure (.keyword _)
  · have hcontent : Held w .mediaType b.content := .of_objects fun o ho => .part hb ho
    apply (contentMembers_ensures hσ hcontent _).bind
    intro q members _ hmembers
    apply Ensures.options_bind
    apply Ensures.pure
    apply TypeExpr.UsesOnly.object
    intro m hm
    rw [List.mem_singleton.mp hm]
    exact .property (.object hmembers)

/-- A reference to an object of a kind whose own types are fine. -/
theorem refType_of_reaches [Referable α] [LawfulReferable α]
    {inline : α → String → Typing TypeExpr}
    (hinline : ∀ x place q, w.Reaches (LawfulReferable.toObject x) →
      Ensures w σ q (inline x place) (Typed w))
    {ref : String} (hasks : w.Asks ref) (place : String) :
    Ensures w σ p (refType inline ref place) (Typed w) :=
  refType_ensures hasks place fun target _ htarget _ _ _ => hinline target _ _ htarget.reaches

theorem requestBodyMember_ensures (hσ : HookFree σ) {b : Option RequestBody}
    (hb : ∀ x, b = some x → w.Reaches (.requestBody x)) (place : String) :
    Ensures w σ p (requestBodyMember b place) (MemberTyped w) := by
  unfold requestBodyMember
  apply Ensures.options_bind
  dsimp only
  cases b with
  | none => exact .pure (.property (.keyword _))
  | some b =>
    have hreaches := hb b rfl
    dsimp only
    split
    · apply (requestBodyType_ensures hσ hreaches place).bind
      intro q t _ ht
      exact .pure (.property ht)
    · have hasks : w.Asks b.ref := Source.Asks.held hreaches
      apply (find?_ensures hasks (α := RequestBody)).bind
      intro q found _ _
      cases found with
      | none =>
        apply (unresolved_ensures b.ref place).bind
        intro r t _ ht
        exact .pure (.property ht)
      | some resolved =>
        have htype : Ensures w σ q (refType requestBodyType b.ref place) (Typed w) :=
          refType_of_reaches (fun x place q hx => requestBodyType_ensures hσ hx place) hasks place
        apply htype.bind
        intro r t _ ht
        exact .pure (.property ht)

/-- A further member before those that come after it. -/
theorem memberTyped_cons {q r : Progress} (hqr : Extends q r) {m : Member} {members : List Member}
    (hm : MemberTyped w q m) (hmembers : ∀ m ∈ members, MemberTyped w r m) :
    ∀ m' ∈ m :: members, MemberTyped w r m' := by
  intro m' hm'
  rcases List.mem_cons.mp hm' with rfl | hmem
  · exact hm.mono hqr.toGrows
  · exact hmembers m' hmem

theorem headerMembers_ensures (hσ : HookFree σ) (place : String)
    (listed : List (String × Option Header))
    (hlisted : ∀ name h, (name, some h) ∈ listed → w.Reaches (.header h)) :
    Ensures w σ p (headerMembers place listed) fun q members =>
      ∀ m ∈ members, MemberTyped w q m := by
  induction listed generalizing p with
  | nil => exact .pure nofun
  | cons entry rest ih =>
    have hrest (q : Progress) := ih (p := q) fun name h hmem =>
      hlisted name h (List.mem_cons_of_mem _ hmem)
    obtain ⟨name, h⟩ := entry
    cases h with
    | none => exact hrest p
    | some h =>
      have hh : w.Reaches (.header h) := hlisted name h List.mem_cons_self
      have hasks : w.Asks h.ref := Source.Asks.held hh
      rw [headerMembers]
      apply Ensures.options_bind
      dsimp only
      split
      · have htype : Ensures w σ p
            (refType headerType h.ref (Reference.join place ["headers", name])) (Typed w) :=
          refType_of_reaches (fun x place q hx => headerType_ensures hσ hx place) hasks _
        apply htype.bind
        intro q t _ ht
        apply (find?_ensures hasks (α := Header)).bind
        intro r found hqr _
        apply (hrest r).bind
        intro r' members hrr' hmembers
        exact .pure (memberTyped_cons (hqr.trans hrr') (.property ht) hmembers)
      · split
        · exact hrest p
        · apply (headerType_ensures hσ hh _).bind
          intro q t _ ht
          apply (hrest q).bind
          intro r members hqr hmembers
          exact .pure (memberTyped_cons hqr (.property ht) hmembers)

theorem responseType_ensures (hσ : HookFree σ) {r : Response} (hr : w.Reaches (.response r))
    (place : String) : Ensures w σ p (responseType r place) (Typed w) := by
  unfold responseType
  apply Ensures.options_bind
  apply Ensures.entries_bind
  intro listed hlisted
  have hheld : Held w .header r.headers :=
    .of_objects fun o ho => .part hr (List.mem_append_left _ ho)
  apply (headerMembers_ensures hσ place listed fun name h hmem =>
    hheld name h (hlisted.subset hmem)).bind
  intro q headers _ hheaders
  have hcontent : Held w .mediaType r.content :=
    .of_objects fun o ho => .part hr (List.mem_append_right _ ho)
  apply (contentMembers_ensures hσ hcontent _).bind
  intro q' content hqq' hmembers
  apply Ensures.pure
  apply TypeExpr.UsesOnly.object
  intro m hm
  simp only [List.mem_cons, List.not_mem_nil, or_false] at hm
  rcases hm with rfl | rfl
  · apply Member.UsesOnly.property
    apply TypeExpr.UsesOnly.object
    intro m hm
    rcases List.mem_append.mp hm with hheader | hfurther
    · exact (hheaders m hheader).mono hqq'.toGrows
    · rw [List.mem_singleton.mp hfurther]
      exact .indexSignature (.keyword _) (.keyword _)
  · split
    · apply Member.UsesOnly.property
      split <;> exact TypeExpr.UsesOnly.keyword _
    · exact .property (.object hmembers)

theorem responseMembers_ensures (hσ : HookFree σ) (place : String)
    (listed : List (String × Option Response))
    (hlisted : ∀ code r, (code, some r) ∈ listed → w.Reaches (.response r)) :
    Ensures w σ p (responseMembers place listed) fun q members =>
      ∀ m ∈ members, MemberTyped w q m := by
  induction listed generalizing p with
  | nil => exact .pure nofun
  | cons entry rest ih =>
    have hrest (q : Progress) := ih (p := q) fun code r hmem =>
      hlisted code r (List.mem_cons_of_mem _ hmem)
    obtain ⟨code, r⟩ := entry
    cases r with
    | none => exact hrest p
    | some r =>
      have hr : w.Reaches (.response r) := hlisted code r List.mem_cons_self
      have hasks : w.Asks r.ref := Source.Asks.held hr
      rw [responseMembers]
      apply Ensures.options_bind
      dsimp only
      split
      · have htype : Ensures w σ p
            (refType responseType r.ref (Reference.join place [code])) (Typed w) :=
          refType_of_reaches (fun x place q hx => responseType_ensures hσ hx place) hasks _
        apply htype.bind
        intro q t _ ht
        apply (find?_ensures hasks (α := Response)).bind
        intro q' found hqq' _
        apply (hrest q').bind
        intro q'' members hext hmembers
        exact .pure (memberTyped_cons (hqq'.trans hext) (.property ht) hmembers)
      · apply (responseType_ensures hσ hr _).bind
        intro q t _ ht
        apply (hrest q).bind
        intro q' members hqq' hmembers
        exact .pure (memberTyped_cons hqq' (.property ht) hmembers)

theorem responsesType_ensures (hσ : HookFree σ) {responses : Option Responses}
    (hresponses : Held w .response responses) (place : String) :
    Ensures w σ p (responsesType responses place) (Typed w) := by
  unfold responsesType
  apply Ensures.entries_bind
  intro listed hlisted
  apply (responseMembers_ensures hσ place listed fun code r hmem =>
    hresponses code r (hlisted.subset hmem)).bind
  intro q members _ hmembers
  split
  · exact .pure (.keyword _)
  · exact .pure (.object hmembers)

end ApiTypes.Typing
