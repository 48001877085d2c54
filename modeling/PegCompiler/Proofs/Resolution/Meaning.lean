import PegCompiler.Proofs.Resolution.Values
/-
  Resolution preserves meaning. A resolved grammar matches where the grammar matches,
  and with the same value wherever values are kept; elsewhere, in lookaheads and
  separators, only the places where matches stop are the same, and nobody asks for
  more. Calls agree by induction on their depth, everything else rule by rule of
  resolution.
-/

namespace PegCompiler.Resolution

open Grammar (Quantified Quantifier Reading RowValues readAlternatives readElements)
open Resolved (Captured Machine Matcher Parser ValueType captureVar runAlternatives runElements)
open Semantics (Host Outcome checked consumed nothing repetition slice stopEnd turn)

section
variable {V : Type}

/-! ## Outcomes that agree -/

/-- Two outcomes stop at one place, and have one value where values are kept. -/
inductive Same (keeps : Bool) : Option (Outcome V) → Option (Outcome V) → Prop
  | unknown : Same keeps none none
  | failed : Same keeps (some .failed) (some .failed)
  | matched {stop : Nat} {v w : V} (h : keeps = true → v = w) :
      Same keeps (some (.matched stop v)) (some (.matched stop w))

theorem Same.refl (keeps : Bool) : ∀ (x : Option (Outcome V)), Same keeps x x
  | none => .unknown
  | some .failed => .failed
  | some (.matched _ _) => .matched fun _ => rfl

theorem Same.of_eq {keeps : Bool} {x y : Option (Outcome V)} (h : x = y) : Same keeps x y :=
  h ▸ .refl _ _

theorem Same.stop {keeps : Bool} {x y : Option (Outcome V)} (h : Same keeps x y) :
    x.map Outcome.stop? = y.map Outcome.stop? := by
  cases h <;> rfl

theorem Same.eq {x y : Option (Outcome V)} (h : Same true x y) : x = y := by
  cases h with
  | unknown => rfl
  | failed => rfl
  | matched h => rw [h rfl]

/-- Two rows stop at one place, with related captures and values. -/
inductive SameRow {α β : Type} (P : α → β → Prop) :
    Option (Option (Nat × α)) → Option (Option (Nat × β)) → Prop
  | unknown : SameRow P none none
  | failed : SameRow P (some none) (some none)
  | matched {stop : Nat} {a : α} {b : β} (h : P a b) :
      SameRow P (some (some (stop, a))) (some (some (stop, b)))

/-- A match that has the text it consumed for its value. -/
def IsText (H : Host V) (input : List Char) (pos : Nat) (x : Option (Outcome V)) : Prop :=
  ∀ stop v, x = some (.matched stop v) → v = H.ofText (slice input pos stop)

theorem isText_consumed {H : Host V} {input : List Char} {pos : Nat} {stop : Option Nat} :
    IsText H input pos (some (consumed H input pos stop)) := by
  intro stop' v h
  cases stop with
  | none => simp [consumed] at h
  | some stop =>
    simp only [consumed, Option.some.injEq, Outcome.matched.injEq] at h
    obtain ⟨rfl, rfl⟩ := h
    rfl

theorem isText_repetition {H : Host V} {input : List Char} {min : Int} {max : Option Int}
    {between : Nat → Option (Option Nat)} {body : Nat → Option (Outcome V)} {pos : Nat} :
    IsText H input pos (repetition H input min max between body pos) := by
  intro stop v h
  simp only [repetition, Option.bind_eq_bind, Option.bind_eq_some_iff] at h
  obtain ⟨_, _, h⟩ := h
  exact isText_consumed stop v h

/-- A repetition asks its body and its separator only where they stop. -/
theorem repetition_congr {H : Host V} {input : List Char} {min : Int} {max : Option Int}
    {between between' : Nat → Option (Option Nat)} {body body' : Nat → Option (Outcome V)}
    (hbetween : ∀ pos, between pos = between' pos)
    (hbody : ∀ pos, (body pos).map Outcome.stop? = (body' pos).map Outcome.stop?) (pos : Nat) :
    repetition H input min max between body pos = repetition H input min max between' body' pos := by
  have hturn : turn between body = turn between' body' := by
    funext first pos
    unfold turn
    simp only [hbetween, hbody]
  unfold repetition
  rw [hturn]

/-! ## Parts of a grammar -/

/-- The reading that shares input, target language and calls with a machine. -/
def reading (M : Machine V) : Reading V := ⟨M.host, M.input, M.call⟩

variable {M : Machine V}

theorem any_classTests (c : Char) : ∀ (items : List Grammar.ClassItem),
    (classTests items).any (Resolved.ClassTest.holds c) =
      items.any (Grammar.ClassItem.contains c)
  | [] => rfl
  | .range bottom top :: rest => by
    rw [classTests, List.any_cons, List.any_cons, any_classTests c rest]
    rfl
  | .char d :: rest => by
    have ih := any_classTests c rest
    rw [classTests, List.any_cons, ← ih]
    split
    next chars tests htests =>
      rw [htests]
      simp [Resolved.ClassTest.holds, Grammar.ClassItem.contains, Bool.or_assoc, beq_eq_decide]
    next => simp [Resolved.ClassTest.holds, Grammar.ClassItem.contains, beq_eq_decide]

theorem read_bounded {e : Grammar.Expr} {quantifier : Quantifier} {min : Resolved.Bound}
    {max : Option Resolved.Bound} (h : Bounded quantifier min max) (R : Reading V) (pos : Nat) :
    (⟨e, quantifier⟩ : Quantified).read R pos =
      repetition R.host R.input (min.value R.host pos) (max.map (Resolved.Bound.value R.host pos))
        nothing (e.read R) pos := by
  cases h with
  | optional => rfl
  | zeroOrMore => rfl
  | oneOrMore => rfl
  | exact positive => rfl
  | @range min max sound => cases max <;> rfl
  | @computed min max sound => cases min <;> cases max <;> rfl

/-- What is no plain reference or group has the text it consumed for its value. -/
theorem isText_read (R : Reading V) : ∀ (body : Quantified), isPlain body = false → ∀ pos,
    IsText R.host R.input pos (body.read R pos)
  | ⟨.literal _, .one⟩, _, _ => isText_consumed
  | ⟨.class _, .one⟩, _, _ => isText_consumed
  | ⟨.anyChar, .one⟩, _, _ => isText_consumed
  | ⟨.endOfInput, .one⟩, _, _ => isText_consumed
  | ⟨_, .optional⟩, _, _ => isText_repetition
  | ⟨_, .zeroOrMore⟩, _, _ => isText_repetition
  | ⟨_, .oneOrMore⟩, _, _ => isText_repetition
  | ⟨_, .exact _⟩, _, _ => isText_repetition
  | ⟨_, .range _ _⟩, _, _ => isText_repetition
  | ⟨_, .separated _ _⟩, _, _ => isText_repetition
  | ⟨_, .computed _ _⟩, _, _ => isText_repetition

theorem run_call {env : Env} {ctx : Context} {target : String} {call : Resolved.RuleCall}
    {out out' : Emitted} (h : Yields (ruleCall env ctx target) out call out')
    (captures : Captured V) (pos : Nat) :
    (Matcher.call call).run M captures pos = M.call target pos := by
  obtain ⟨_, _, rfl, _⟩ | ⟨_, rfl, _⟩ := of_ruleCall h <;> rfl

/-! ## Elements -/

/-- The captures of a row hold the values that are kept of it, in front of a position. -/
def Means (ctx : Context) (position : Nat) (row : Row) (env : Captured V) (values : RowValues V) :
    Prop :=
  RowMeans ctx.predicateSources ctx.alternative position row env (keptValues ctx.capturing values)

theorem RowMeans.next {sources : List String} {alternative position : Nat} {row : Row}
    {env : Captured V} {values : RowValues V}
    (h : RowMeans sources alternative position row env values) :
    RowMeans sources alternative (position + 1) row env values :=
  { h with free := fun q hq => h.free q (by omega) }

/-- What is said of an item that is captured or not. -/
structure Fits (ctx : Context) (kept plucked : Bool) (label rule : Option String)
    (body : Quantified) : Prop where
  capturing : kept = true → ctx.capturing = true
  rule : rule = body.reference?
  unasked : kept = false → ctx.capturing = true →
    plucked = false ∧ label = none ∧ ∀ r, body.reference? = some r → r ∉ ctx.predicateSources

theorem fits_keeps {ctx : Context} {plucked : Bool} {label : Option String} {body : Quantified}
    (h : body.reference? = none) : Fits ctx (keeps ctx plucked label) plucked label none body where
  capturing hk := by
    unfold keeps at hk
    exact (Bool.and_eq_true_iff.mp hk).1
  rule := h.symm
  unasked hk hc := by
    unfold keeps at hk
    rw [hc, Bool.true_and, Bool.or_eq_false_iff] at hk
    exact ⟨hk.1, by simpa using hk.2, fun r hr => by rw [h] at hr; cases hr⟩

theorem fits_keepsReference {ctx : Context} {plucked : Bool} {label : Option String}
    {target : String} :
    Fits ctx (keepsReference ctx plucked label target) plucked label (some target)
      ⟨.ruleRef target, .one⟩ where
  capturing hk := by
    unfold keepsReference at hk
    exact (Bool.and_eq_true_iff.mp hk).1
  rule := rfl
  unasked hk hc := by
    unfold keepsReference at hk
    rw [hc, Bool.true_and, Bool.or_eq_false_iff, Bool.or_eq_false_iff] at hk
    refine ⟨hk.1.1, by simpa using hk.1.2, fun r hr => ?_⟩
    obtain rfl := Option.some.inj hr
    simpa [Context.isPredicateSource] using hk.2

/-- An item means the same as what it became, if its body does. -/
theorem item_means {ctx : Context} {kept plucked : Bool} {label rule : Option String}
    {body : Quantified} {m : Matcher} {type : ValueType} {source : Resolved.CaptureSource}
    (hfits : Fits ctx kept plucked label rule body) {row : Row} {env : Captured V}
    {values : RowValues V} {pos : Nat}
    (hsame : Same ctx.capturing (m.run M env pos) (body.read (reading M) pos))
    (htext : source = .text → IsText M.host M.input pos (body.read (reading M) pos))
    (hrow : Means ctx ctx.position row env values) :
    SameRow (Means ctx (ctx.position + 1)
        (row.add (keptIf kept ctx plucked label rule m type source)))
      ((keptIf kept ctx plucked label rule m type source).element.run M env pos)
      ((Grammar.Element.item plucked label body).read (reading M) values pos) := by
  unfold Resolved.Element.run Grammar.Element.read
  rw [matcher_keptIf]
  generalize m.run M env pos = x at hsame
  generalize body.read (reading M) pos = y at hsame htext
  cases hsame with
  | unknown => exact .unknown
  | failed => exact .failed
  | @matched stop v w hvalue =>
    refine .matched ?_
    cases kept with
    | true =>
      -- values are kept here, so the value captured is the one that the item has
      have hc := hfits.capturing rfl
      have hw := hvalue hc
      subst hw
      have hkeep := RowMeans.keep hrow body v
        (e := keptIf true ctx plucked label rule m type source) rfl rfl hfits.rule
      have henv : Resolved.Capture.keep M env pos stop v
          (keptIf true ctx plucked label rule m type source).element.capture =
            (captureVar ctx.alternative ctx.position, v) :: env := by
        cases source with
        | value => rfl
        | text => rw [htext rfl stop v rfl]; rfl
      rw [henv]
      unfold Means
      unfold keptValues at hkeep ⊢
      rwa [hc] at hkeep ⊢
    | false =>
      show Means ctx (ctx.position + 1) row env (values.add plucked label body w)
      unfold Means keptValues at hrow ⊢
      cases hc : ctx.capturing with
      | false =>
        rw [hc] at hrow
        exact hrow.next
      | true =>
        -- no label, no pluck and no predicate asks for the value
        obtain ⟨rfl, rfl, hunasked⟩ := hfits.unasked rfl hc
        rw [hc] at hrow
        exact hrow.skip hunasked

/-- A check consumes nothing and binds nothing. -/
theorem check_means {ctx : Context} {row : Row} {env : Captured V} (m : Matcher)
    (values : RowValues V) (pos : Nat) {ok checkRead : Option Bool}
    (hrun : m.run M env pos = ok.map (checked M.host M.input pos)) (hread : checkRead = ok)
    (hrow : Means ctx ctx.position row env values) :
    SameRow (Means ctx (ctx.position + 1) (row.add (uncaptured false m)))
      ((uncaptured false m).element.run M env pos)
      (checkRead.map fun ok => if ok then some (pos, values) else none) := by
  subst hread
  unfold Resolved.Element.run
  show SameRow _ ((m.run M env pos).map _) _
  rw [hrun]
  rcases checkRead with _ | _ | _
  · exact .unknown
  · exact .failed
  · exact .matched (RowMeans.next hrow)

/-! ## The rules of resolution preserve meaning -/

/-- Nodes and what they become match the same, with the table `env` and as part of the
parser `p`. -/
def meaning (env : Env) (p : Parser) (M : Machine V) : Relations where
  alternatives ctx i out as rs out' := Grows out out' ∧ (Final p out' →
    ∀ types, (ctx.path = [] → types = Resolved.actionResult env.types ctx.rule) →
      ∀ pos, Same ctx.capturing (runAlternatives M rs pos)
        (readAlternatives (reading M) types i as pos))
  alternative ctx out a r out' := Grows out out' ∧ (Final p out' →
    ∀ type, (ctx.path = [] → type = Resolved.actionResult env.types ctx.rule ctx.alternative) →
      ∀ pos, Same ctx.capturing (r.run M pos) (a.read (reading M) type pos))
  elements ctx position row out es rs row' out' := Grows out out' ∧ (Final p out' →
    predicateSources es ⊆ ctx.predicateSources → ∀ captures values pos,
      Means ctx position row captures values →
      SameRow (Means ctx (position + es.length) row') (runElements M captures rs pos)
        (readElements (reading M) values es pos))
  element ctx out e r out' := Grows out out' ∧ (Final p out' →
    predicateSources [e] ⊆ ctx.predicateSources → ∀ row captures values pos,
      ctx.labels = row.labels → ctx.ruleValues = row.ruleValues →
      Means ctx ctx.position row captures values →
      SameRow (Means ctx (ctx.position + 1) (row.add r)) (r.element.run M captures pos)
        (e.read (reading M) values pos))
  quantified ctx out body m out' := Grows out out' ∧ (Final p out' → ∀ captures pos,
    Same ctx.capturing (m.run M captures pos) (body.read (reading M) pos))
  expr ctx out e m out' := Grows out out' ∧ (Final p out' → ∀ captures pos,
    Same ctx.capturing (m.run M captures pos) (e.read (reading M) pos))

theorem same_more {keeps : Bool} {r : Resolved.Alternative} {rs : List Resolved.Alternative}
    {a : Grammar.Alternative} {as : List Grammar.Alternative} {types : Nat → ValueType} {i pos : Nat}
    (ha : Same keeps (r.run M pos) (a.read (reading M) (types i) pos))
    (hrest : Same keeps (runAlternatives M rs pos)
      (readAlternatives (reading M) types (i + 1) as pos)) :
    Same keeps (runAlternatives M (r :: rs) pos)
      (readAlternatives (reading M) types i (a :: as) pos) := by
  rw [runAlternatives, readAlternatives]
  generalize r.run M pos = x at ha
  generalize a.read (reading M) (types i) pos = y at ha
  cases ha with
  | unknown => exact .unknown
  | failed => exact hrest
  | matched h => exact .matched h

theorem readElements_cons (R : Reading V) (values : RowValues V) (e : Grammar.Element)
    (rest : List Grammar.Element) (pos : Nat) :
    readElements R values (e :: rest) pos = (e.read R values pos).bind fun
      | none => some none
      | some (stop, values) => readElements R values rest stop := by
  rw [readElements]
  rcases e.read R values pos with _ | _ | ⟨_, _⟩ <;> rfl

theorem same_row {ctx : Context} {env : Env} {p : Parser} (hp : Agrees env p)
    (hactions : M.actions = p.actions) {es : List Grammar.Element} {action : Option String}
    {rs : List Resolved.Element} {row : Row} {result : Resolved.AltResult} {type t : ValueType}
    {mid out' : Emitted} (hvalue : Yields (rowValue env ctx row action) mid (result, type) out')
    (hfinal : Final p out') {pos position : Nat}
    (ht : ctx.path = [] → t = Resolved.actionResult env.types ctx.rule ctx.alternative)
    (hes : SameRow (Means ctx position row) (runElements M [] rs pos)
      (readElements (reading M) {} es pos)) :
    Same ctx.capturing ((⟨rs, result, type⟩ : Resolved.Alternative).run M pos)
      ((⟨es, action⟩ : Grammar.Alternative).read (reading M) t pos) := by
  rw [Resolved.Alternative.run, Grammar.Alternative.read]
  generalize runElements M [] rs pos = x at hes
  generalize readElements (reading M) {} es pos = y at hes
  cases hes with
  | unknown => exact .unknown
  | failed => exact .failed
  | @matched stop captures values hrow =>
    have hv := value_means hp hactions hvalue hfinal hrow ht pos stop
    show Same _ ((result.value M captures pos stop).map _) _
    rw [hv]
    refine .matched fun hc => ?_
    rw [keptValues, if_pos hc]
    rfl

theorem meaning_closed {env : Env} {p : Parser} (hp : Agrees env p)
    (hactions : M.actions = p.actions) : (meaning env p M).Closed env where
  noAlternatives := ⟨.refl _, fun _ _ _ _ => .failed⟩
  moreAlternatives {ctx i out a rest r rs mid out'} ha hrest :=
    ⟨((Grows.addNote _ _).trans ha.1).trans hrest.1, fun hfinal types htypes pos =>
      same_more (ha.2 (hfinal.of_grows hrest.1) (types i) (fun hpath => by rw [htypes hpath]; rfl) pos)
        (hrest.2 hfinal types htypes pos)⟩
  row hes hvalue := by
    have hgrows := Grows.of_rowValue hvalue
    refine ⟨hes.1.trans hgrows, fun hfinal t ht pos => ?_⟩
    exact same_row hp hactions hvalue hfinal ht
      (hes.2 (hfinal.of_grows hgrows) (List.Subset.refl _) [] {} pos (by
        unfold Means keptValues
        split <;> exact .empty _ _))
  noElements := ⟨.refl _, fun _ _ _ _ _ hrow => .matched hrow⟩
  moreElements {ctx position row out e rest r rs row' mid out'} he hrest := by
    refine ⟨he.1.trans hrest.1, fun hfinal hsources captures values pos hrow => ?_⟩
    rw [predicateSources_cons, List.append_subset] at hsources
    have he := he.2 (hfinal.of_grows hrest.1) hsources.1 row captures values pos rfl rfl hrow
    -- the elements behind run with what the row has bound so far
    rw [Resolved.runElements_cons, readElements_cons]
    generalize r.element.run M captures pos = x at he
    generalize e.read (reading M) values pos = y at he
    cases he with
    | unknown => exact .unknown
    | failed => exact .failed
    | @matched stop captures' values' hrow' =>
      have := hrest.2 hfinal hsources.2 captures' values' stop hrow'
      rwa [List.length_cons, Nat.add_comm _ 1, ← Nat.add_assoc]
  predicate {ctx out negated p call out'} h := by
    refine ⟨.of_resolvePredicate h, fun hfinal hsources row captures values pos hl hv hrow => ?_⟩
    have hmem : ∀ q ∈ p.params, q.source ∈ ctx.predicateSources := fun q hq =>
      hsources (by simpa [predicateSources] using ⟨q, hq, rfl⟩)
    obtain ⟨v, hrun, hread⟩ :=
      predicate_means hp hactions h hfinal hl hv hmem (R := reading M) rfl hrow
    have hchecked : (Matcher.predicate negated call).run M captures pos =
        (some (M.host.holds v != negated)).map (checked M.host M.input pos) := by
      rw [Matcher.run, hrun]
      rfl
    have hcheck := check_means _ values pos hchecked rfl hrow
    rw [Grammar.Element.read, hread]
    exact hcheck
  lookahead {ctx out negated body m out'} h := by
    refine ⟨h.1, fun hfinal _ row captures values pos _ _ hrow => ?_⟩
    have hstop := congrArg (Option.map (fun s => s.isSome != negated))
      (h.2 hfinal captures pos).stop
    rw [Option.map_map, Option.map_map] at hstop
    have hcheck := check_means (.lookahead negated m) values pos
      (by rw [Matcher.run, Option.map_map]; rfl) hstop.symm hrow
    rw [Grammar.Element.read]
    rw [Option.map_map] at hcheck
    exact hcheck
  reference _ hcall := ⟨.of_ruleCall hcall, fun _ _ row captures values pos _ _ hrow =>
    item_means fits_keepsReference (by rw [run_call hcall]; exact .refl _ _) (fun h => nomatch h) hrow⟩
  group _ _ h _ := ⟨h.1, fun hfinal _ row captures values pos _ _ hrow =>
    item_means (fits_keeps rfl) (h.2 hfinal _ (fun hpath => absurd hpath
      (Numbered.path_enterGroup _)) pos) (fun h => nomatch h) hrow⟩
  item _ hplain h := ⟨h.1, fun hfinal _ row captures values pos _ _ hrow =>
    item_means (fits_keeps (reference_of_not_plain hplain)) (h.2 hfinal captures pos)
      (fun _ => isText_read (reading M) _ hplain pos) hrow⟩
  once h := h
  repeated h hbounded := ⟨h.1.trans (.addNote _ _), fun hfinal captures pos => by
    have hfinal := hfinal.of_grows (.addNote _ _)
    rw [read_bounded hbounded, Matcher.run]
    -- a repetition keeps no values of its turns, so that they stop alike is enough
    exact .of_eq (repetition_congr (fun _ => rfl) (fun q => (h.2 hfinal captures q).stop) pos)⟩
  separated h _ hs := ⟨(h.1.trans hs.1).trans (.addNote _ _), fun hfinal captures pos => by
    have hfinal := hfinal.of_grows (.addNote _ _)
    rw [Matcher.run]
    exact .of_eq (repetition_congr (fun q => (hs.2 hfinal captures q).stop)
      (fun q => (h.2 (hfinal.of_grows hs.1) captures q).stop) pos)⟩
  literal := ⟨.refl _, fun _ _ _ => .refl _ _⟩
  charClass _ := ⟨.refl _, fun _ _ pos => by
    rw [Matcher.run, Grammar.Expr.read]
    simp only [any_classTests]
    exact .refl _ _⟩
  ruleRef hcall := ⟨.of_ruleCall hcall, fun _ captures pos => by
    rw [run_call hcall]
    exact .refl _ _⟩
  anyChar := ⟨.refl _, fun _ _ _ => .refl _ _⟩
  endOfInput := ⟨.refl _, fun _ _ _ => .refl _ _⟩
  nested _ h := ⟨h.1, fun hfinal captures pos =>
    h.2 hfinal _ (fun hpath => absurd hpath (Numbered.path_enterGroup _)) pos⟩

/-! ## Whole grammars -/

/-- A rule and what it became have one id and match the same. -/
structure MeansRule (types : ActionTypes) (M : Machine V) (rule : Grammar.Rule)
    (r : Resolved.Rule) : Prop where
  id : r.id = rule.id
  start : r.start = rule.start
  body : ∀ pos, r.body.run M pos = readAlternatives (reading M)
    (Resolved.actionResult types rule.id) 0 rule.alternatives pos

theorem rules_mean {g : Grammar} {types : ActionTypes} {p : Parser} (h : resolve g types = .ok p)
    (hactions : M.actions = p.actions) : List.Forall₂ (MeansRule types M) g.rules p.rules := by
  obtain ⟨-, out, hrules, hunresolved, hout⟩ := of_resolve h
  refine forall₂_of_rules (fun hr hgrows => ?_) hrules
  obtain ⟨-, rs, hrs, -, rfl⟩ := of_resolveRule hr
  have hfinal : Final p _ := Final.of_grows ⟨hout ▸ List.prefix_refl _, hunresolved⟩ hgrows
  have hsame := ((meaning_closed (agrees h) hactions).alternatives _ hrs).2 hfinal _ fun _ => rfl
  exact ⟨rfl, rfl, fun pos => (hsame pos).eq⟩

/-- Calls nested equally deep come to the same. -/
theorem call_eq {g : Grammar} {types : ActionTypes} {p : Parser} (h : resolve g types = .ok p)
    (H : Host V) (input : List Char) : ∀ (depth : Nat),
    p.call H input depth = g.call types H input depth
  | 0 => rfl
  | depth + 1 => by
    funext id pos
    rw [Parser.call, Grammar.call, ← call_eq h H input depth]
    have hfind := rel_find? (fun rule => rule.id == id) (fun r => r.id == id)
      (fun _ _ hr => by rw [hr.id])
      (rules_mean (M := ⟨H, input, p.actions, p.call H input depth⟩) h rfl)
    unfold Parser.rule Grammar.rule
    generalize hx : g.rules.find? (fun rule => rule.id == id) = x at hfind
    generalize p.rules.find? (fun r => r.id == id) = y at hfind
    cases hfind with
    | none => rfl
    | @some rule r hr =>
      obtain rfl : rule.id = id := by simpa using List.find?_some hx
      have hfinish : r.finish ⟨H, input, p.actions, p.call H input depth⟩ =
          rule.finish ⟨H, input, p.call H input depth⟩ := by
        funext outcome
        cases outcome with
        | failed => rfl
        | matched stop value => rw [Resolved.Rule.finish, Grammar.Rule.finish, hr.start]
      show (r.body.run _ pos).map (r.finish _) = Option.map (rule.finish _) _
      rw [hr.body pos, hfinish]
      rfl

end

/-- **Resolution preserves meaning.** Every rule of the parser matches exactly where the
rule of the grammar does, with the same value, and fails exactly where it does. -/
theorem resolve_meaning {g : Grammar} {types : ActionTypes} {p : Parser}
    (h : resolve g types = .ok p) {V : Type} (H : Host V) (input : List Char) (rule : String)
    (pos : Nat) :
    (∀ stop value, p.Matches H input rule pos stop value ↔
      g.Matches types H input rule pos stop value) ∧
    (p.Fails H input rule pos ↔ g.Fails types H input rule pos) := by
  refine ⟨fun stop value => exists_congr fun depth => ?_, exists_congr fun depth => ?_⟩
  · rw [call_eq h]
  · rw [call_eq h]

/-- A target language whose values are texts and whose functions give their first
argument; a text that is not too long stands for a condition that holds. -/
def texts : Host (List Char) where
  ofText text := text
  toText text := text
  toText_ofText _ := rfl
  run _ _ args := (args.map (fun a => a.2)).headD []
  holds text := text.length < 5
  bound _ _ := 0

theorem number_meaning : resolve number {} = .ok numberParser ∧
    number.Matches {} texts "12".toList "Number" 0 2 "12".toList ∧
    number.Fails {} texts "12345".toList "Number" 0 := by
  refine ⟨resolve_number, ((resolve_meaning resolve_number texts _ _ _).1 _ _).mp ⟨2, ?_⟩,
    (resolve_meaning resolve_number texts _ _ _).2.mp ⟨2, ?_⟩⟩
  · cbv
  · cbv

end PegCompiler.Resolution
