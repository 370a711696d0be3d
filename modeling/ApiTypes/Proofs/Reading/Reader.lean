import ApiTypes.Text.Basic
import Mathlib.Data.List.Basic

/-!
Readers of text. A reader takes a value off the front of a text and leaves the rest. What it reads
may depend on what follows: a word ends where no character of a word stands, a list where no
separator stands. So a reader reads a text as a value *before* what satisfies a condition.
-/

namespace ApiTypes

/-- Takes a value off the front of a text, if one stands there. -/
abbrev Reader := StateT (List Char) Option

namespace Reader

variable {α β γ : Type}

/-- The given text. -/
def exactly (text : String) : Reader Unit :=
  fun cs => (Text.dropStart? text.toList cs).map fun rest => ((), rest)

/-- All that satisfies `p` at the front, which has to be something. -/
def word (p : Char → Bool) : Reader String := fun cs =>
  if (cs.takeWhile p).isEmpty then none else some (String.ofList (cs.takeWhile p), cs.dropWhile p)

/-- Whatever satisfies `p` at the front. -/
def skip (p : Char → Bool) : Reader Unit := fun cs => some ((), cs.dropWhile p)

/-- At most so many items, up to the first that cannot be read. -/
def manyWithin (item : Reader α) : Nat → List Char → List α × List Char
  | 0, cs => ([], cs)
  | steps + 1, cs =>
    match item cs with
    | none => ([], cs)
    | some (x, rest) => (x :: (manyWithin item steps rest).1, (manyWithin item steps rest).2)

/-- Items up to the first that cannot be read. Each takes a character at least, so the length of
the text is enough as a number of steps. -/
def many (item : Reader α) : Reader (List α) := fun cs => some (manyWithin item cs.length cs)

/-- One item or more with `sep` between neighbours. -/
def sepBy (sep : String) (item : Reader α) : Reader (List α) := do
  let first ← item
  let more ← many (do exactly sep; item)
  pure (first :: more)

/-- What stands between two texts. -/
def between (opening closing : String) (reader : Reader α) : Reader α := do
  exactly opening
  let x ← reader
  exactly closing
  pure x

/-- The reader takes `text` for `value`, whatever comes after it that satisfies `after`. -/
def Reads (reader : Reader α) (text : List Char) (value : α) (after : List Char → Prop) : Prop :=
  ∀ rest, after rest → reader (text ++ rest) = some (value, rest)

/-- No condition on what follows. -/
def Anything (_ : List Char) : Prop := True

/-- The text is over or goes on with one of the marks. -/
def StopsAt (marks : List Char) (rest : List Char) : Prop := ∀ c ∈ rest.head?, c ∈ marks

theorem stopsAt_cons {marks : List Char} {c : Char} (h : c ∈ marks) (rest : List Char) :
    StopsAt marks (c :: rest) := by
  rintro _ ⟨⟩
  exact h

theorem StopsAt.mono {marks more : List Char} {rest : List Char} (h : StopsAt marks rest)
    (hsub : ∀ c ∈ marks, c ∈ more) : StopsAt more rest := fun c hc => hsub c (h c hc)

/-! What a reader does at a text, from what its parts do there. -/

theorem bind_of_none {reader : Reader α} {cs : List Char} (h : reader cs = none)
    (next : α → Reader β) : (reader >>= next) cs = none := by
  change (reader cs).bind _ = none
  rw [h]
  rfl

theorem bind_of_some {reader : Reader α} {cs rest : List Char} {x : α}
    (h : reader cs = some (x, rest)) (next : α → Reader β) :
    (reader >>= next) cs = next x rest := by
  change (reader cs).bind _ = _
  rw [h]
  rfl

theorem map_of_none {reader : Reader α} {cs : List Char} (h : reader cs = none) (f : α → β) :
    (f <$> reader) cs = none := by
  rw [map_eq_pure_bind]
  exact bind_of_none h _

theorem orElse_of_none {first second : Reader α} {cs : List Char} (h : first cs = none) :
    (first <|> second) cs = second cs := by
  change (first cs <|> second cs) = _
  rw [h]
  rfl

theorem orElse_of_some {first second : Reader α} {cs : List Char} {result : α × List Char}
    (h : first cs = some result) : (first <|> second) cs = some result := by
  change (first cs <|> second cs) = _
  rw [h]
  rfl

theorem exactly_of_ne {text : String} {mark c : Char} {more : List Char}
    (htext : text.toList = mark :: more) (h : mark ≠ c) (rest : List Char) :
    exactly text (c :: rest) = none := by
  rw [exactly, htext, Text.dropStart?, if_neg h]
  rfl

theorem StopsAt.exactly_eq_none {marks rest : List Char} (h : StopsAt marks rest) {text : String}
    {mark : Char} {more : List Char} (htext : text.toList = mark :: more) (hmark : mark ∉ marks) :
    exactly text rest = none := by
  cases rest with
  | nil => rw [exactly, htext, Text.dropStart?]; rfl
  | cons c rest => exact exactly_of_ne htext (fun heq => hmark (heq ▸ h c rfl)) rest

theorem word_of_not {p : Char → Bool} {c : Char} (h : p c = false) (rest : List Char) :
    word p (c :: rest) = none := by
  rw [word, List.takeWhile_cons_of_neg (by simp [h])]
  rfl

theorem between_of_none {opening : String} {cs : List Char} (h : exactly opening cs = none)
    (closing : String) (reader : Reader α) : between opening closing reader cs = none :=
  bind_of_none h _

theorem toList_join (sep first : String) (more : List String) :
    (Text.join sep (first :: more)).toList =
      first.toList ++ more.flatMap fun s => sep.toList ++ s.toList := by
  induction more generalizing first with
  | nil => simp [Text.join]
  | cons s more ih =>
    rw [Text.join, String.toList_append, String.toList_append, ih, List.flatMap_cons]
    · simp only [List.append_assoc]
    · nofun

/-! What a reader reads, from what its parts read. -/

namespace Reads

variable {reader : Reader α} {text : List Char} {x : α} {after : List Char → Prop}

theorem nothing (x : α) (after : List Char → Prop) : Reads (pure x) [] x after :=
  fun _ _ => rfl

theorem mono {before : List Char → Prop} (h : Reads reader text x after)
    (hsub : ∀ rest, before rest → after rest) : Reads reader text x before :=
  fun rest hrest => h rest (hsub rest hrest)

theorem bind {next : α → Reader β} {more : List Char} {y : β} {later : List Char → Prop}
    (h : Reads reader text x after) (hnext : Reads (next x) more y later)
    (hafter : ∀ rest, later rest → after (more ++ rest)) :
    Reads (reader >>= next) (text ++ more) y later := by
  intro rest hrest
  rw [List.append_assoc, bind_of_some (h _ (hafter rest hrest))]
  exact hnext rest hrest

theorem thenPure (h : Reads reader text x after) (f : α → β) :
    Reads (do let y ← reader; pure (f y)) text (f x) after := by
  intro rest hrest
  rw [bind_of_some (h rest hrest)]
  rfl

theorem map (h : Reads reader text x after) (f : α → β) :
    Reads (f <$> reader) text (f x) after := by
  rw [map_eq_pure_bind]
  exact h.thenPure f

theorem orElse (h : Reads reader text x after) (second : Reader α) :
    Reads (reader <|> second) text x after :=
  fun rest hrest => orElse_of_some (h rest hrest)

theorem orElse_of_none {first : Reader α} (h : Reads reader text x after)
    (hfirst : ∀ rest, after rest → first (text ++ rest) = none) :
    Reads (first <|> reader) text x after :=
  fun rest hrest => (Reader.orElse_of_none (hfirst rest hrest)).trans (h rest hrest)

theorem exactly (text : String) : Reads (exactly text) text.toList () Anything := by
  intro rest _
  have hdrop (cs : List Char) : Text.dropStart? cs (cs ++ rest) = some rest := by
    induction cs with
    | nil => rfl
    | cons c cs ih => rw [List.cons_append, Text.dropStart?, if_pos rfl, ih]
  rw [Reader.exactly, hdrop]
  rfl

theorem preceded (opening : String) (h : Reads reader text x after) :
    Reads (do Reader.exactly opening; reader) (opening.toList ++ text) x after :=
  (exactly opening).bind h fun _ _ => trivial

theorem between (opening closing : String) (h : Reads reader text x after)
    (hafter : ∀ rest, after (closing.toList ++ rest)) :
    Reads (between opening closing reader) (opening.toList ++ text ++ closing.toList) x
      Anything := by
  have hclosing : Reads (do Reader.exactly closing; pure x) (closing.toList ++ []) x Anything :=
    preceded closing (nothing x Anything)
  rw [List.append_nil] at hclosing
  rw [List.append_assoc]
  exact preceded opening (h.bind hclosing fun rest _ => hafter rest)

theorem word {p : Char → Bool} {text : List Char} (hne : text ≠ [])
    (hall : ∀ c ∈ text, p c = true) :
    Reads (word p) text (String.ofList text) fun rest => ∀ c ∈ rest.head?, p c = false := by
  intro rest hrest
  have htake : (text ++ rest).takeWhile p = text := by
    rw [List.takeWhile_append_of_pos hall]
    cases rest with
    | nil => simp
    | cons c rest => rw [List.takeWhile_cons_of_neg (by simp [hrest c rfl]), List.append_nil]
  have hdrop : (text ++ rest).dropWhile p = rest := by
    rw [List.dropWhile_append_of_pos hall]
    cases rest with
    | nil => rfl
    | cons c rest => rw [List.dropWhile_cons_of_neg (by simp [hrest c rfl])]
  rw [Reader.word, htake, hdrop, if_neg (by simpa using hne)]

theorem skip {p : Char → Bool} {text : List Char} (hall : ∀ c ∈ text, p c = true) :
    Reads (skip p) text () fun rest => ∀ c ∈ rest.head?, p c = false := by
  intro rest hrest
  rw [Reader.skip, List.dropWhile_append_of_pos hall]
  cases rest with
  | nil => rfl
  | cons c rest => rw [List.dropWhile_cons_of_neg (by simp [hrest c rfl])]

section Lists

variable {item : Reader α} {between later : List Char → Prop} {xs : List β}
  {printed : β → List Char} {value : β → α}

/-- Items one after another are read as such, if each may be followed by the next and the reader of
items stops after the last. -/
theorem many (hitem : ∀ y ∈ xs, Reads item (printed y) (value y) between)
    (hne : ∀ y ∈ xs, printed y ≠ [])
    (hnext : ∀ y ∈ xs, ∀ rest, between (printed y ++ rest))
    (hlast : ∀ rest, later rest → between rest ∧ item rest = none) :
    Reads (many item) (xs.flatMap printed) (xs.map value) later := by
  intro rest hrest
  have hwithin (steps : Nat) (hsteps : (xs.flatMap printed).length ≤ steps) :
      manyWithin item steps (xs.flatMap printed ++ rest) = (xs.map value, rest) := by
    induction xs generalizing steps with
    | nil =>
      cases steps with
      | zero => rfl
      | succ steps =>
        rw [List.flatMap_nil, List.nil_append, manyWithin, (hlast rest hrest).2]
        rfl
    | cons y ys ih =>
      have hlength := List.length_pos_of_ne_nil (hne y List.mem_cons_self)
      rw [List.flatMap_cons, List.length_append] at hsteps
      obtain ⟨steps, rfl⟩ : ∃ k, steps = k + 1 := ⟨steps - 1, by omega⟩
      have hys : between (ys.flatMap printed ++ rest) := by
        cases ys with
        | nil => exact (hlast rest hrest).1
        | cons z zs =>
          rw [List.flatMap_cons, List.append_assoc]
          exact hnext z (by simp) _
      rw [List.flatMap_cons, List.append_assoc, manyWithin, hitem y List.mem_cons_self _ hys]
      simp only [List.map_cons]
      rw [ih (fun z hz => hitem z (List.mem_cons_of_mem _ hz))
        (fun z hz => hne z (List.mem_cons_of_mem _ hz))
        (fun z hz => hnext z (List.mem_cons_of_mem _ hz)) steps (by omega)]
  change some _ = some _
  rw [hwithin _ (by simp)]

/-- Items with a separator between neighbours are read as such. -/
theorem sepBy {sep : String} {mark : Char} {more : List Char} (hsep : sep.toList = mark :: more)
    {printed : β → String} (hxs : xs ≠ [])
    (hitem : ∀ y ∈ xs, Reads item (printed y).toList (value y) between)
    (hnext : ∀ rest, between (sep.toList ++ rest))
    (hlast : ∀ rest, later rest → between rest ∧ Reader.exactly sep rest = none) :
    Reads (sepBy sep item) (Text.join sep (xs.map printed)).toList (xs.map value) later := by
  obtain ⟨first, xs, rfl⟩ := List.exists_cons_of_ne_nil hxs
  have hmember (y) (hy : y ∈ xs) : Reads (do Reader.exactly sep; item)
      (sep.toList ++ (printed y).toList) (value y) between :=
    preceded sep (hitem y (List.mem_cons_of_mem _ hy))
  have hmore : Reads (Reader.many (do Reader.exactly sep; item))
      (xs.flatMap fun y => sep.toList ++ (printed y).toList) (xs.map value) later := by
    refine many hmember (fun y _ => ?_) (fun y _ rest => ?_) fun rest hrest => ?_
    · rw [hsep]
      exact List.cons_ne_nil _ _
    · rw [List.append_assoc]
      exact hnext _
    · exact ⟨(hlast rest hrest).1, bind_of_none (hlast rest hrest).2 _⟩
  have hall : Reads (do
      let more ← Reader.many (do Reader.exactly sep; item)
      pure (value first :: more))
      (xs.flatMap fun y => sep.toList ++ (printed y).toList) (value first :: xs.map value) later :=
    hmore.thenPure _
  rw [List.map_cons, toList_join]
  simp only [List.flatMap_map]
  refine (hitem first List.mem_cons_self).bind hall fun rest hrest => ?_
  cases xs with
  | nil => exact (hlast rest hrest).1
  | cons y ys =>
    rw [List.flatMap_cons, List.append_assoc, List.append_assoc]
    exact hnext _

end Lists

end Reads

end Reader

end ApiTypes
