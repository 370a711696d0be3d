import ApiTypes.Banner

/-!
What a template makes of its data depends only on the keys that it asks for. The standard banner
asks for the title and the version of a description, and so is the same wherever it is written.
-/

namespace ApiTypes

namespace Template

/-- Whether a term may stand for the data as a whole; `whole` tells if the current value may. -/
def Term.isWhole (whole : Bool) : Term → Bool
  | .dot => whole
  | .field names => whole && names.isEmpty
  | .root names => names.isEmpty
  | .text _ _ | .function _ => false

/-- Whether a term asks the data for the given keys only. -/
def Term.asksOnly (keys : List String) (whole : Bool) : Term → Bool
  | .field (name :: _) => !whole || keys.contains name
  | .root (name :: _) => keys.contains name
  | _ => true

/-- Whether commands ask the data for the given keys only, and none gives the data as a whole. -/
def Pipeline.asksOnly (keys : List String) (whole : Bool) (p : Pipeline) : Bool :=
  p.all fun c => c.all (·.term.asksOnly keys whole) && !c.head?.any (·.term.isWhole whole)

mutual

def Node.asksOnly (keys : List String) (whole : Bool) : Node → Bool
  | .text _ => true
  | .action p => Pipeline.asksOnly keys whole p
  | .choice rebinds p yes no =>
    Pipeline.asksOnly keys whole p && asksOnlyAll keys (whole && !rebinds) yes &&
      asksOnlyAll keys whole no

def asksOnlyAll (keys : List String) (whole : Bool) : List Node → Bool
  | [] => true
  | node :: rest => node.asksOnly keys whole && asksOnlyAll keys whole rest

end

variable {data data' : Data} {keys : List String} {whole isOpen : Bool} {dot value result : Value}
  {first operand : Operand} {path : List String}

/-- What stands under a key is a text, or nothing. -/
theorem elim_ne_data (found : Option String) : found.elim .absent .text ≠ Value.data := by
  cases found <;> nofun

theorem follow_eq (h : value = .data → ∀ name ∈ path.head?, data.lookup name = data'.lookup name) :
    follow data operand isOpen value path = follow data' operand isOpen value path := by
  induction path generalizing isOpen value with
  | nil => cases value <;> rfl
  | cons name rest ih =>
    cases value with
    | absent => exact ih nofun
    | text s => rfl
    | data =>
      change follow data operand true ((data.lookup name).elim .absent .text) rest =
        follow data' operand true ((data'.lookup name).elim .absent .text) rest
      rw [h rfl name rfl]
      exact ih fun hdata => absurd hdata (elim_ne_data _)

theorem follow_ne_data (hvalue : value = .data → path ≠ [])
    (h : follow data operand isOpen value path = .ok result) : result ≠ .data := by
  induction path generalizing isOpen value with
  | nil =>
    have hresult : follow data operand isOpen value [] = .ok value := by cases value <;> rfl
    rw [hresult] at h
    rw [← Except.ok.inj h]
    exact fun hdata => hvalue hdata rfl
  | cons name rest ih =>
    cases value with
    | absent => exact @ih _ .absent nofun h
    | text s => cases h
    | data => exact ih (fun hdata => absurd hdata (elim_ne_data _)) h

section

variable (hdata : ∀ name ∈ keys, data.lookup name = data'.lookup name)

include hdata

theorem lookup_head {names : List String} (h : (Term.root names).asksOnly keys whole = true) :
    ∀ name ∈ names.head?, data.lookup name = data'.lookup name := by
  cases names with
  | nil => nofun
  | cons name rest =>
    rintro _ ⟨⟩
    exact hdata name (List.contains_iff_mem.mp h)

variable (hdot : dot = .data → whole = true)

include hdot

theorem lookup_head_field {names : List String}
    (h : (Term.field names).asksOnly keys whole = true) :
    dot = .data → ∀ name ∈ names.head?, data.lookup name = data'.lookup name := by
  intro hwhole
  cases names with
  | nil => nofun
  | cons name rest =>
    rintro _ ⟨⟩
    rw [Term.asksOnly, hdot hwhole] at h
    exact hdata name (List.contains_iff_mem.mp h)

theorem argument_eq (h : operand.term.asksOnly keys whole = true) :
    argument data dot operand = argument data' dot operand := by
  obtain ⟨term, offset⟩ := operand
  cases term with
  | dot => rfl
  | field names => exact follow_eq (lookup_head_field hdata hdot h)
  | root names => exact follow_eq fun _ => lookup_head hdata h
  | text value source => rfl
  | function name => rfl

theorem runCommand_eq {final : Option Value} {c : List Operand}
    (h : c.all (·.term.asksOnly keys whole) = true) :
    runCommand data dot final c = runCommand data' dot final c := by
  have hlast (names : List String) : ∀ name ∈ names.dropLast.head?, name ∈ names.head? := by
    match names with
    | [] => nofun
    | [_] => nofun
    | _ :: _ :: _ => exact fun _ hname => hname
  cases c with
  | nil => rfl
  | cons first args =>
    rw [List.all_cons, Bool.and_eq_true] at h
    obtain ⟨hfirst, hargs⟩ := h
    obtain ⟨term, offset⟩ := first
    cases term with
    | dot => rfl
    | field names =>
      have hhead := lookup_head_field hdata hdot hfirst
      have hbefore (operand : Operand) : follow data operand false dot names.dropLast =
          follow data' operand false dot names.dropLast :=
        follow_eq fun hwhole name hname => hhead hwhole name (hlast names name hname)
      have hnames (operand : Operand) : follow data operand false dot names =
          follow data' operand false dot names := follow_eq hhead
      simp only [runCommand, hbefore, hnames]
    | root names =>
      have hhead := lookup_head hdata hfirst
      have hbefore (operand : Operand) : follow data operand false .data names.dropLast =
          follow data' operand false .data names.dropLast :=
        follow_eq fun _ name hname => hhead name (hlast names name hname)
      have hnames (operand : Operand) : follow data operand false .data names =
          follow data' operand false .data names := follow_eq fun _ => hhead
      cases names with
      | nil => rfl
      | cons name rest => simp only [runCommand, hbefore, hnames]
    | text value source => rfl
    | function name =>
      match args with
      | [] => cases final <;> rfl
      | [arg] =>
        have harg := argument_eq hdata hdot (List.all_eq_true.mp hargs arg List.mem_cons_self)
        simp only [runCommand, harg]
      | _ :: _ :: _ => cases final <;> rfl

end

/-- No run of the action gives the data as a whole. -/
def GivesPart (act : Running Value) : Prop := ∀ value, act = .ok value → value ≠ .data

theorem GivesPart.bind {α : Type} {act : Running α} {next : α → Running Value}
    (h : ∀ x, GivesPart (next x)) : GivesPart (act >>= next) := by
  cases act with
  | error e => nofun
  | ok x => exact h x

theorem GivesPart.pure {value : Value} (h : value ≠ .data) : GivesPart (Pure.pure value) := by
  rintro _ ⟨⟩
  exact h

theorem GivesPart.throw (e : RunFault) : GivesPart (MonadExcept.throw e) := nofun

/-- A command that starts with no term for the whole data gives something else. -/
theorem givesPart_runCommand {final : Option Value} {c : List Operand}
    (hdot : dot = .data → whole = true) (h : c.head?.any (·.term.isWhole whole) = false) :
    GivesPart (runCommand data dot final c) := by
  cases c with
  | nil => exact .pure nofun
  | cons first args =>
    obtain ⟨term, offset⟩ := first
    have hterm : term.isWhole whole = false := by simpa using h
    cases term with
    | dot =>
      refine .bind fun _ => .pure fun hdata => ?_
      rw [hdot hdata] at hterm
      cases hterm
    | field names =>
      have hnames : GivesPart (follow data ⟨.field names, offset⟩ false dot names) := by
        refine fun value => follow_ne_data fun hdata hempty => ?_
        rw [Term.isWhole, hdot hdata, hempty] at hterm
        cases hterm
      refine .bind fun before => ?_
      split
      · split
        · exact .bind fun _ => hnames
        · exact hnames
      · exact hnames
    | root names =>
      cases names with
      | nil => cases hterm
      | cons name rest =>
        have hnames : GivesPart
            (follow data ⟨.root (name :: rest), offset⟩ false .data (name :: rest)) :=
          fun value => follow_ne_data nofun
        refine .bind fun before => ?_
        split
        · split
          · exact .bind fun _ => hnames
          · exact hnames
        · exact hnames
    | text value source => exact .bind fun _ => .pure nofun
    | function name =>
      unfold runCommand
      dsimp only
      generalize args.length + (if final.isSome = true then 1 else 0) = count
      split
      · exact .throw _
      · split
        · exact .bind fun _ => .bind fun _ => .pure nofun
        · exact .bind fun _ => .pure nofun
        · exact .pure nofun

/-- The step of a pipeline from the value so far. -/
def afterCommand (data : Data) (dot : Value) (final : Option Value) (c : List Operand) :
    Running (Option Value) :=
  some <$> runCommand data dot final c

theorem runPipeline_eq_foldlM (p : Pipeline) :
    runPipeline data dot p = (·.getD .absent) <$> p.foldlM (afterCommand data dot) none := rfl

section

variable (hdot : dot = .data → whole = true)

include hdot

theorem foldlM_afterCommand_eq (hdata : ∀ name ∈ keys, data.lookup name = data'.lookup name)
    {p : Pipeline} (h : Pipeline.asksOnly keys whole p = true) (final : Option Value) :
    p.foldlM (afterCommand data dot) final = p.foldlM (afterCommand data' dot) final := by
  induction p generalizing final with
  | nil => rfl
  | cons c rest ih =>
    rw [Pipeline.asksOnly, List.all_cons, Bool.and_eq_true, Bool.and_eq_true] at h
    obtain ⟨⟨hc, -⟩, hrest⟩ := h
    rw [List.foldlM_cons, List.foldlM_cons, afterCommand, afterCommand, runCommand_eq hdata hdot hc]
    exact bind_congr fun next => ih hrest next

theorem foldlM_afterCommand_ne_data {p : Pipeline} (h : Pipeline.asksOnly keys whole p = true)
    {final next : Option Value} (hfinal : final ≠ some .data)
    (hrun : p.foldlM (afterCommand data dot) final = .ok next) : next ≠ some .data := by
  induction p generalizing final with
  | nil =>
    cases hrun
    exact hfinal
  | cons c rest ih =>
    rw [Pipeline.asksOnly, List.all_cons, Bool.and_eq_true, Bool.and_eq_true] at h
    obtain ⟨⟨-, hc⟩, hrest⟩ := h
    rw [List.foldlM_cons, afterCommand] at hrun
    cases hvalue : runCommand data dot final c with
    | error e =>
      rw [hvalue] at hrun
      cases hrun
    | ok value =>
      rw [hvalue] at hrun
      have hpart : value ≠ .data := givesPart_runCommand hdot (by simpa using hc) value hvalue
      exact ih hrest (fun hsome => hpart (Option.some.inj hsome)) hrun

theorem givesPart_runPipeline {p : Pipeline} (h : Pipeline.asksOnly keys whole p = true) :
    GivesPart (runPipeline data dot p) := by
  intro value hrun
  rw [runPipeline_eq_foldlM] at hrun
  cases hlast : p.foldlM (afterCommand data dot) none with
  | error e =>
    rw [hlast] at hrun
    cases hrun
  | ok last =>
    rw [hlast] at hrun
    have hnone : (none : Option Value) ≠ some .data := Option.some_ne_none _ |>.symm
    have hne := foldlM_afterCommand_ne_data hdot h hnone hlast
    cases hrun
    cases last with
    | none => nofun
    | some value => exact fun hdata => hne (congrArg some hdata)

end

theorem insertion_eq (h : value ≠ .data) : insertion data value = insertion data' value := by
  cases value with
  | absent => rfl
  | text s => rfl
  | data => exact absurd rfl h

theorem holds_eq (h : value ≠ .data) : holds data value = holds data' value := by
  cases value with
  | absent => rfl
  | text s => rfl
  | data => exact absurd rfl h

/-- Goes on alike after a pipeline that gives no value that is the whole data. -/
theorem bind_runPipeline_eq (hdata : ∀ name ∈ keys, data.lookup name = data'.lookup name)
    (hdot : dot = .data → whole = true) {p : Pipeline}
    (h : Pipeline.asksOnly keys whole p = true) {next next' : Value → Running String}
    (hnext : ∀ value, value ≠ .data → next value = next' value) :
    runPipeline data dot p >>= next = runPipeline data' dot p >>= next' := by
  have hrun : runPipeline data dot p = runPipeline data' dot p := by
    rw [runPipeline_eq_foldlM, runPipeline_eq_foldlM, foldlM_afterCommand_eq hdot hdata h]
  rw [← hrun]
  cases hvalue : runPipeline data dot p with
  | error e => rfl
  | ok value => exact hnext value (givesPart_runPipeline hdot h value hvalue)

mutual

/-- What a node makes of the data depends only on the keys that it asks for. -/
theorem runNode_eq (hdata : ∀ name ∈ keys, data.lookup name = data'.lookup name) :
    ∀ (node : Node) {whole : Bool} {dot : Value}, (dot = .data → whole = true) →
      node.asksOnly keys whole = true → runNode data dot node = runNode data' dot node
  | .text _, _, _, _, _ => by simp only [runNode]
  | .action p, _, _, hdot, h => by
    rw [Node.asksOnly] at h
    simp only [runNode]
    exact bind_runPipeline_eq hdata hdot h fun value hvalue => by rw [insertion_eq hvalue]
  | .choice rebinds p yes no, whole, dot, hdot, h => by
    rw [Node.asksOnly, Bool.and_eq_true, Bool.and_eq_true] at h
    obtain ⟨⟨hp, hyes⟩, hno⟩ := h
    simp only [runNode]
    refine bind_runPipeline_eq hdata hdot hp fun value hvalue => ?_
    have hinside : (if rebinds then value else dot) = .data → (whole && !rebinds) = true := by
      cases rebinds with
      | true => exact fun hwhole => absurd hwhole hvalue
      | false => exact fun hwhole => by rw [hdot hwhole]; rfl
    rw [holds_eq hvalue, runNodes_eq hdata yes hinside hyes, runNodes_eq hdata no hdot hno]

theorem runNodes_eq (hdata : ∀ name ∈ keys, data.lookup name = data'.lookup name) :
    ∀ (nodes : List Node) {whole : Bool} {dot : Value}, (dot = .data → whole = true) →
      asksOnlyAll keys whole nodes = true → runNodes data dot nodes = runNodes data' dot nodes
  | [], _, _, _, _ => by simp only [runNodes]
  | node :: rest, _, _, hdot, h => by
    rw [asksOnlyAll, Bool.and_eq_true] at h
    simp only [runNodes, runNode_eq hdata node hdot h.1, runNodes_eq hdata rest hdot h.2]

end

theorem render_eq_ok {name source text : String} {nodes : List Node}
    (hparse : parse name source = .ok nodes) (hrun : runNodes data .data nodes = .ok text) :
    render name source data = .ok text := by
  simp only [render, hparse, hrun]

/-- Data that agree on the keys that a template asks for give the same text. -/
theorem render_eq (hdata : ∀ name ∈ keys, data.lookup name = data'.lookup name)
    {name source : String} {nodes : List Node} (hparse : parse name source = .ok nodes)
    (h : asksOnlyAll keys true nodes = true) :
    render name source data = render name source data' := by
  have hrun : runNodes data .data nodes = runNodes data' .data nodes :=
    runNodes_eq hdata nodes (fun _ => rfl) h
  simp only [render, hparse, hrun]

end Template

namespace Banner

/-- The keys that the standard banner asks for. -/
def standardKeys : List String := ["Title", "Version"]

/-- Whether a template with the given tokens can be read, asks for the keys of the standard one
only, and makes a text of a description without a title. -/
def isFitting (listed : List Template.Token) : Bool :=
  match Template.nodes templateName (listed.length + 1) listed with
  | .ok (nodes, .finished, _) =>
    Template.asksOnlyAll standardKeys true nodes &&
      (Template.runNodes (data {} "" "") .data nodes).toOption.isSome
  | _ => false

theorem parse_of_isFitting {source : String} (h : isFitting (Template.tokens source) = true) :
    ∃ nodes, Template.parse templateName source = .ok nodes ∧
      Template.asksOnlyAll standardKeys true nodes = true ∧
        (Template.runNodes (data {} "" "") .data nodes).toOption.isSome = true := by
  unfold isFitting at h
  split at h
  next nodes rest hnodes =>
    refine ⟨nodes, ?_, Bool.and_eq_true_iff.mp h⟩
    simp only [Template.parse, hnodes]
    rfl
  next => cases h

theorem isFitting_standard : isFitting (Template.tokens standard) = true := by
  -- The characters are taken line by line: those of a joined text are slow to evaluate.
  obtain ⟨cs, hcs, hfitting⟩ : ∃ cs, standard.toList = cs ∧
      isFitting (Template.tokensWithin (2 * cs.length + 2) false {} cs) = true := by
    simp only [standard, Text.join, String.toList_append]
    exact ⟨_, rfl, by decide +kernel⟩
  rw [Template.tokens, hcs]
  exact hfitting

variable {engine engine' : Template.Engine}

/-- The standard banner does not tell where it is written or what it was made from, and no engine
changes it. -/
theorem render_standard (info : Info) (spec spec' out out' : String) :
    render engine "" (data info spec out) = render engine' "" (data info spec' out') := by
  have hkeys : ∀ name ∈ standardKeys,
      (data info spec out).lookup name = (data info spec' out').lookup name := by
    intro name hname
    rcases List.mem_cons.mp hname with rfl | hname
    · rfl
    · cases List.mem_singleton.mp hname
      rfl
  obtain ⟨nodes, hparse, hasks, -⟩ := parse_of_isFitting isFitting_standard
  simp only [render, if_pos, Template.render_eq hkeys hparse hasks]

theorem exists_render_standard (spec out : String) :
    ∃ text, render engine "" (data {} spec out) = .ok text := by
  obtain ⟨nodes, hparse, -, hruns⟩ := parse_of_isFitting isFitting_standard
  rw [@render_standard engine engine {} spec "" out ""]
  cases hrun : Template.runNodes (data {} "" "") .data nodes with
  | error e =>
    rw [hrun] at hruns
    cases hruns
  | ok text =>
    exact ⟨endLine text, by rw [render, if_pos rfl, Template.render_eq_ok hparse hrun, Except.map]⟩

end Banner

end ApiTypes
