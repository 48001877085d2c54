import PegCompiler.Proofs.Resolution.Typing
import PegCompiler.Proofs.Semantics.Grammar
import PegCompiler.Proofs.Semantics.Resolved
/-
  The values of a row. Resolution turns labels, references and plucked items into
  variables; `RowMeans` says that these variables hold the values of the row that they
  stand for, as far as they are kept. Elements that are captured into variables of
  their own places preserve it, and behind it predicates and the value of the row come
  to the same on both sides.
-/

namespace PegCompiler.Resolution

open Grammar (RowValues Quantified)
open Resolved (ActionCall AltResult Captured Machine Parser ValueType captureVar)
open Semantics (Host slice)

section
variable {V : Type}

/-- All captures that a variable stands for stay. -/
def Extends (env env' : Captured V) : Prop :=
  ∀ var v, env.lookup var = some v → env'.lookup var = some v

/-- What a row has bound holds its values: labels and plucked items one by one, and of
references the latest ones of rules that predicates of the row name. Variables from a
position on are still free. -/
structure RowMeans (sources : List String) (alternative position : Nat) (row : Row)
    (env : Captured V) (values : RowValues V) : Prop where
  labels : List.Forall₂ (fun b e => b.label = e.1 ∧ env.lookup b.var = some e.2)
    row.labels values.labels
  references : ∀ s ∈ sources, Option.Rel (fun b v => env.lookup b.var = some v)
    (row.ruleValues.reverse.find? (fun b => b.label == s)) (values.references.reverse.lookup s)
  plucks : List.Forall₂ (fun c v => env.lookup c.1 = some v) row.plucks values.plucked
  free : ∀ q, position ≤ q → env.lookup (captureVar alternative q) = none

theorem RowMeans.empty (sources : List String) (alternative : Nat) :
    RowMeans (V := V) sources alternative 0 {} [] {} where
  labels := .nil
  references _ _ := .none
  plucks := .nil
  free _ _ := rfl

/-- The values of a row that are kept. -/
def keptValues (capturing : Bool) (values : RowValues V) : RowValues V :=
  if capturing then values else {}

/-- The captures behind an element that is kept. -/
theorem extends_cons {env : Captured V} {var : String} (v : V) (h : env.lookup var = none) :
    Extends env ((var, v) :: env) := by
  intro other w hother
  have hne : other ≠ var := fun he => by
    rw [he, h] at hother
    cases hother
  rw [List.lookup_cons, beq_false_of_ne hne]
  exact hother

theorem lookup_cons_captureVar {env : Captured V} {alternative position : Nat} (v : V)
    (h : ∀ q, position ≤ q → env.lookup (captureVar alternative q) = none) :
    ∀ q, position + 1 ≤ q →
      ((captureVar alternative position, v) :: env).lookup (captureVar alternative q) = none := by
  intro q hq
  have hne : captureVar alternative q ≠ captureVar alternative position := fun he => by
    have := (Naming.captureVar_inj.mp he).2
    omega
  rw [List.lookup_cons, beq_false_of_ne hne]
  exact h q (by omega)

variable {sources : List String} {alternative position : Nat} {row : Row} {env : Captured V}
  {values : RowValues V}

/-- The latest reference to a rule, once there is one more. -/
theorem latest_append {α : Type} (xs : List α) (x : α) (kind : α → Bool) :
    (xs ++ [x]).reverse.find? kind = if kind x then some x else xs.reverse.find? kind := by
  rw [List.reverse_append, List.reverse_singleton, List.singleton_append, List.find?_cons]
  cases kind x <;> rfl

theorem latest_lookup_append {xs : List (String × V)} {name s : String} {v : V} :
    (xs ++ [(name, v)]).reverse.lookup s = if s == name then some v else xs.reverse.lookup s := by
  rw [List.reverse_append, List.reverse_singleton, List.singleton_append, List.lookup_cons]
  cases s == name <;> rfl

/-- An element without a capture, whose value nobody asks for. -/
theorem RowMeans.skip (h : RowMeans sources alternative position row env values)
    {body : Quantified} {v : V} (hbody : ∀ r, body.reference? = some r → r ∉ sources) :
    RowMeans sources alternative (position + 1) row env (values.add false none body v) where
  labels := by simpa [RowValues.add] using h.labels
  references s hs := by
    cases hr : body.reference? with
    | none => simpa [RowValues.add, hr] using h.references s hs
    | some r =>
      have hne : (s == r) = false := beq_false_of_ne fun he => hbody r hr (he ▸ hs)
      simp only [RowValues.add, hr, Option.map_some, Option.toList_some]
      rw [latest_lookup_append, hne]
      exact h.references s hs
  plucks := by simpa [RowValues.add] using h.plucks
  free q hq := h.free q (by omega)

/-- An element that is captured into the variable of its place. -/
theorem RowMeans.keep (h : RowMeans sources alternative position row env values)
    (body : Quantified) (v : V) {e : ResolvedElement} {c : Resolved.Capture}
    (hcapture : e.element.capture = some c) (hvar : c.var = captureVar alternative position)
    (hrule : e.rule = body.reference?) :
    RowMeans sources alternative (position + 1) (row.add e) ((c.var, v) :: env)
      (values.add e.plucked e.label body v) := by
  -- the variable is new, so all older captures keep their values
  have hext : Extends env ((c.var, v) :: env) :=
    extends_cons v (hvar ▸ h.free position (Nat.le_refl _))
  have hself : ((c.var, v) :: env).lookup c.var = some v := List.lookup_cons_self
  have hadd : row.add e = ⟨row.labels ++ (e.label.map fun l => ⟨l, c.var, c.type⟩).toList,
      row.ruleValues ++ (e.rule.map fun r => ⟨r, c.var, c.type⟩).toList,
      row.plucks ++ (if e.plucked then [(c.var, c.type)] else [])⟩ := by
    rw [Row.add, hcapture]
  rw [hadd]
  constructor
  · refine List.rel_append (h.labels.imp fun _ _ hb => ⟨hb.1, hext _ _ hb.2⟩) ?_
    cases e.label with
    | none => exact .nil
    | some l => exact .cons ⟨rfl, hself⟩ .nil
  · intro s hs
    have hold : Option.Rel (fun b w => ((c.var, v) :: env).lookup b.var = some w)
        (row.ruleValues.reverse.find? (fun b => b.label == s))
        (values.references.reverse.lookup s) :=
      rel_imp (fun _ _ hb => hext _ _ hb) (h.references s hs)
    simp only [RowValues.add, hrule]
    cases body.reference? with
    | none => simpa using hold
    | some r =>
      simp only [Option.map_some, Option.toList_some]
      rw [latest_append, latest_lookup_append, Bool.beq_comm (a := s)]
      cases r == s with
      | true => exact .some hself
      | false => exact hold
  · refine List.rel_append (h.plucks.imp fun _ _ hc => hext _ _ hc) ?_
    cases e.plucked with
    | true => exact .cons hself .nil
    | false => exact .nil
  · rw [hvar]
    exact lookup_cons_captureVar v h.free

/-! ## Predicates -/

/-- Only what is kept has a value. -/
theorem source_of_kept {capturing : Bool} {name : String} {v : V}
    (h : (keptValues capturing values).source name = some v) : values.source name = some v := by
  cases capturing with
  | true => exact h
  | false => cases h

/-- A binding that a source names holds the value that the source names. -/
theorem RowMeans.source (h : RowMeans sources alternative position row env values) {ctx : Context}
    (hlabels : ctx.labels = row.labels) (hvalues : ctx.ruleValues = row.ruleValues) {name : String}
    (hname : name ∈ sources) {b : Binding} (hb : sourceBinding ctx name = some b) :
    ∃ v, values.source name = some v ∧ env.lookup b.var = some v := by
  have hlabel := rel_find? (fun b => Resolved.sameName b.label name)
    (fun e => Resolved.sameName e.1 name) (fun b e hbe => by rw [hbe.1]) h.labels
  have hreference := h.references name hname
  unfold sourceBinding Context.lookupLabel Context.lookupRuleValue at hb
  rw [hlabels, hvalues] at hb
  unfold RowValues.source
  generalize row.labels.find? (fun b => Resolved.sameName b.label name) = x at hlabel hb
  generalize values.labels.find? (fun e => Resolved.sameName e.1 name) = y at hlabel
  generalize row.ruleValues.reverse.find? (fun b => b.label == name) = z at hreference hb
  generalize values.references.reverse.lookup name = w at hreference
  cases hlabel with
  | some hlabel =>
    obtain rfl := Option.some.inj hb
    exact ⟨_, rfl, hlabel.2⟩
  | none =>
    cases hreference with
    | none => cases hb
    | some hreference =>
      obtain rfl := Option.some.inj hb
      exact ⟨_, rfl, hreference⟩

section
variable {M : Machine V}

/-- A predicate comes to the same value from the variables of the row as from its
values. -/
theorem predicate_means {tableEnv : Env} {p : Parser} (hp : Agrees tableEnv p)
    (hactions : M.actions = p.actions) {ctx : Context} {q : Grammar.Predicate} {call : ActionCall}
    {out out' : Emitted} (h : Yields (resolvePredicate ctx q) out call out') (hfinal : Final p out')
    (hlabels : ctx.labels = row.labels) (hvalues : ctx.ruleValues = row.ruleValues)
    (hsources : ∀ r ∈ q.params, r.source ∈ sources) {capturing : Bool} {R : Grammar.Reading V}
    (hhost : R.host = M.host)
    (hrow : RowMeans sources alternative position row env (keptValues capturing values)) :
    ∃ v, call.value M env = some v ∧ q.holds R values = some (M.host.holds v) := by
  obtain ⟨sourced, hparams, hsourced, rfl, rfl⟩ := of_resolvePredicate h
  have hf := extracted_onlyOne hp hfinal (List.mem_append_right _ (List.mem_singleton_self
    (predicateAction (Resolved.predicateFunction ctx.base (out.predicateCount ctx.rule)) sourced
      q.code)))
  obtain ⟨vs, hvs⟩ := exists_forall₂ sourced (P := fun s v =>
      values.source s.1.source = some v ∧ env.lookup s.2.var = some v) fun s hs => by
    have hname : s.1 ∈ q.params := hparams ▸ List.mem_map_of_mem hs
    obtain ⟨v, hv, henv⟩ := hrow.source hlabels hvalues (hsources s.1 hname) (hsourced s hs)
    exact ⟨v, source_of_kept hv, henv⟩
  refine ⟨_, Resolved.value_of_call (hactions ▸ hf)
    (List.forall₂_map_left_iff.mpr (hvs.imp fun _ _ hv => hv.2)) (by simp [predicateAction]), ?_⟩
  unfold Grammar.Predicate.holds
  have hargs : q.params.mapM (fun r => (values.source r.source).map (fun v => (r.name, v))) =
      some ((sourced.map (fun s => s.1.name)).zip vs) := by
    rw [← hparams]
    refine mapM_eq_some (List.forall₂_map_left_iff.mpr ((forall₂_zip_map hvs).imp ?_))
    rintro s ⟨name, v⟩ ⟨rfl, hv, -⟩
    rw [hv]
    rfl
  rw [hargs, hhost]
  simp [predicateAction, Sourced.param, Function.comp_def, ValueType.spec]

/-! ## The value of a row -/

/-- The values that the value of a row without an action is made of. -/
def valueList (values : RowValues V) : List V :=
  if values.plucked.isEmpty then values.labels.map (fun e => e.2) else values.plucked

theorem result_none (values : RowValues V) (H : Host V) (input : List Char) (type : ValueType)
    (start stop : Nat) : values.result H input type start stop none =
      if (valueList values).isEmpty then H.ofText (slice input start stop)
      else RowValues.joined H (valueList values) := by
  obtain ⟨labels, references, plucked⟩ := values
  cases plucked with
  | cons v rest => rfl
  | nil => cases labels <;> rfl

theorem RowMeans.valueCaptures (h : RowMeans sources alternative position row env values) :
    List.Forall₂ (fun c v => env.lookup c.1 = some v) row.valueCaptures (valueList values) := by
  have hempty : row.plucks.isEmpty = values.plucked.isEmpty := by
    have hplucks := h.plucks
    generalize row.plucks = xs at hplucks
    generalize values.plucked = ys at hplucks
    cases hplucks <;> rfl
  unfold Row.valueCaptures valueList
  rw [hempty]
  split
  · rw [List.forall₂_map_left_iff, List.forall₂_map_right_iff]
    exact h.labels.imp fun _ _ hb => hb.2
  · exact h.plucks

theorem value_of_joined {cs : List (String × ValueType)} {result : AltResult} {type : ValueType}
    {vs : List V} (h : Joined cs result type)
    (hvs : List.Forall₂ (fun c v => env.lookup c.1 = some v) cs vs) (start stop : Nat) :
    result.value M env start stop =
      some (if vs.isEmpty then M.host.ofText (slice M.input start stop)
        else RowValues.joined M.host vs) := by
  cases h with
  | nothing =>
    cases hvs
    rfl
  | one =>
    obtain _ | ⟨hv, _ | _⟩ := hvs
    exact hv
  | several two texts =>
    have hvars : List.Forall₂ (fun var v => env.lookup var = some v) (cs.map (fun c => c.1)) vs :=
      List.forall₂_map_left_iff.mpr hvs
    have hlen : 2 ≤ vs.length := hvs.length_eq ▸ two
    unfold AltResult.value
    dsimp only
    rw [mapM_eq_some hvars]
    match vs, hlen with
    | _ :: _ :: _, _ => rfl

theorem zip_of_labels {bs : List Binding} {entries : List (String × V)}
    (h : List.Forall₂ (fun b e => b.label = e.1 ∧ env.lookup b.var = some e.2) bs entries) :
    (bs.map (fun b => b.label)).zip (entries.map (fun e => e.2)) = entries := by
  induction h with
  | nil => rfl
  | cons hb _ ih => rw [List.map_cons, List.map_cons, List.zip_cons_cons, ih, hb.1]

/-- The value of a row comes to the same from its variables as from its values; the
type matters for an alternative of a rule only. -/
theorem value_means {tableEnv : Env} {p : Parser} (hp : Agrees tableEnv p)
    (hactions : M.actions = p.actions) {ctx : Context} {action : Option String}
    {result : AltResult} {type : ValueType} {out out' : Emitted}
    (h : Yields (rowValue tableEnv ctx row action) out (result, type) out')
    (hfinal : Final p out') (hrow : RowMeans sources alternative position row env values)
    {t : ValueType}
    (ht : ctx.path = [] → t = Resolved.actionResult tableEnv.types ctx.rule ctx.alternative)
    (start stop : Nat) :
    result.value M env start stop = some (values.result M.host M.input t start stop action) := by
  cases action with
  | none =>
    obtain ⟨-, hjoined⟩ := of_rowValue_none h
    rw [result_none]
    exact value_of_joined hjoined hrow.valueCaptures start stop
  | some code =>
    obtain ⟨hpath, -, rfl, rfl⟩ := of_rowValue_some h
    have hf := extracted_onlyOne hp hfinal (List.mem_append_right _ (List.mem_singleton_self
      (rowAction tableEnv ctx row.labels code)))
    have hargs : List.Forall₂ (fun arg v => env.lookup arg = some v)
        (row.labels.map (fun b => b.var)) (values.labels.map (fun e => e.2)) := by
      rw [List.forall₂_map_left_iff, List.forall₂_map_right_iff]
      exact hrow.labels.imp fun _ _ hb => hb.2
    unfold AltResult.value
    dsimp only
    rw [Resolved.value_of_call (hactions ▸ hf) hargs (by simp [rowAction]), ht hpath]
    simp only [rowAction, List.map_map, Function.comp_def]
    rw [zip_of_labels hrow.labels]
    rfl

end

end

end PegCompiler.Resolution
