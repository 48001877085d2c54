import Mathlib
import PegCompiler.Proofs.Resolution.Extracted
import PegCompiler.Proofs.Resolved.Typed
/-
  Resolution is well typed. The type of a call comes from the rule table, that of a
  capture from what its element resolved to, and that of an extracted function from
  the bindings of its row. A row keeps the invariant that whatever it has bound is
  among the captures of its elements so far (`RowTyped`), and those are variables of
  their places.
-/

namespace PegCompiler.Resolution

open Resolved (BaseName Capture Holds Matcher Parser RuleCall RuleNames ValueType actionFunction
  captureVar predicateFunction ruleFunction)

/-- Whether something extracted is part of a parser that was made without undefined
references. -/
structure Final (p : Parser) (out : Emitted) : Prop where
  actions : out.actions <+: p.actions
  unresolved : out.unresolved = []

theorem Final.of_grows {p : Parser} {out out' : Emitted} (h : Final p out') (hg : Grows out out') :
    Final p out :=
  ⟨hg.actions.trans h.actions, List.prefix_nil.mp (h.unresolved ▸ hg.unresolved)⟩

/-- What a rule table promises of a parser. -/
structure Agrees (env : Env) (p : Parser) : Prop where
  calls : ∀ target info, env.rule target = some info →
    RuleCall.Typed p ⟨target, info.function, info.resultType⟩
  actions : (p.actions.map (fun f => f.function)).Nodup

/-- What a row has bound is among the captures of its elements in front of a
position. -/
structure RowTyped (alternative position : Nat) (earlier : List Capture) (row : Row) : Prop where
  labels : ∀ b ∈ row.labels, Holds earlier b.var b.type
  ruleValues : ∀ b ∈ row.ruleValues, Holds earlier b.var b.type
  plucks : ∀ c ∈ row.plucks, Holds earlier c.1 c.2
  vars : ∀ c ∈ earlier, ∃ q < position, c.var = captureVar alternative q
  nodup : (earlier.map (fun c => c.var)).Nodup

theorem RowTyped.empty (alternative : Nat) : RowTyped alternative 0 [] {} where
  labels _ h := nomatch h
  ruleValues _ h := nomatch h
  plucks _ h := nomatch h
  vars _ h := nomatch h
  nodup := List.nodup_nil

/-- An element that is captured into the variable of its place adds a capture. -/
theorem RowTyped.add {alternative position : Nat} {earlier : List Capture} {row : Row}
    (h : RowTyped alternative position earlier row) {e : ResolvedElement}
    (hvar : ∀ c, e.element.capture = some c → c.var = captureVar alternative position) :
    RowTyped alternative (position + 1) (earlier ++ e.element.capture.toList) (row.add e) := by
  obtain ⟨⟨matcher, capture⟩, label, rule, plucked⟩ := e
  cases capture with
  | none =>
    rw [Option.toList_none, List.append_nil]
    refine { h with vars := fun c hc => ?_ }
    obtain ⟨q, hq, hname⟩ := h.vars c hc
    exact ⟨q, Nat.lt_succ_of_lt hq, hname⟩
  | some c =>
    have hold : earlier ⊆ earlier ++ [c] := List.subset_append_left _ _
    have hnew : Holds (earlier ++ [c]) c.var c.type := ⟨c, by simp, rfl, rfl⟩
    constructor
    · intro b hb
      rcases List.mem_append.mp hb with hb | hb
      · exact (h.labels b hb).mono hold
      · obtain ⟨l, -, rfl⟩ := by simpa using hb
        exact hnew
    · intro b hb
      rcases List.mem_append.mp hb with hb | hb
      · exact (h.ruleValues b hb).mono hold
      · obtain ⟨l, -, rfl⟩ := by simpa using hb
        exact hnew
    · intro b hb
      rcases List.mem_append.mp hb with hb | hb
      · exact (h.plucks b hb).mono hold
      · obtain ⟨-, rfl⟩ := by simpa using hb
        exact hnew
    · intro d hd
      rcases List.mem_append.mp hd with hd | hd
      · obtain ⟨q, hq, hname⟩ := h.vars d hd
        exact ⟨q, Nat.lt_succ_of_lt hq, hname⟩
      · obtain rfl : d = c := by simpa using hd
        exact ⟨position, Nat.lt_succ_self _, hvar d rfl⟩
    · rw [Option.toList_some, List.map_append, List.map_singleton, ← List.concat_eq_append]
      refine List.Nodup.concat (fun hmem => ?_) h.nodup
      obtain ⟨d, hd, hname⟩ := List.mem_map.mp hmem
      obtain ⟨q, hq, hq'⟩ := h.vars d hd
      rw [hvar c rfl, hq'] at hname
      have := (Naming.captureVar_inj.mp hname).2
      omega

/-! ## Calls and values -/

section
variable {env : Env} {p : Parser} (hp : Agrees env p)
include hp

theorem call_typed {ctx : Context} {target : String} {call : RuleCall} {out out' : Emitted}
    (h : Yields (ruleCall env ctx target) out call out') (hfinal : Final p out') :
    call.Typed p := by
  obtain ⟨info, hinfo, rfl, -⟩ | ⟨-, -, rfl⟩ := of_ruleCall h
  · exact hp.calls target info hinfo
  · exact absurd hfinal.unresolved (by simp [Emitted.addUnresolved])

/-- A function that was extracted is the only one of its name. -/
theorem extracted_onlyOne {out : Emitted} {f : Resolved.Action} (hfinal : Final p out)
    (hf : f ∈ out.actions) : OnlyOne p.actions (fun g => g.function == f.function) f :=
  onlyOne_of_nodup hp.actions (hfinal.actions.subset hf)

theorem predicate_typed {ctx : Context} {q : Grammar.Predicate} {call : Resolved.ActionCall}
    {out out' : Emitted} {earlier : List Capture}
    (h : Yields (resolvePredicate ctx q) out call out') (hfinal : Final p out')
    (hlabels : ∀ b ∈ ctx.labels, Holds earlier b.var b.type)
    (hvalues : ∀ b ∈ ctx.ruleValues, Holds earlier b.var b.type) :
    call.Typed p .predicate earlier (.declared "logical") := by
  obtain ⟨sourced, -, hsourced, rfl, rfl⟩ := of_resolvePredicate h
  refine ⟨_, extracted_onlyOne hp hfinal
    (List.mem_append_right _ (List.mem_singleton_self _)), rfl, rfl, ?_⟩
  rw [predicateAction, List.forall₂_map_left_iff, List.forall₂_map_right_iff, List.forall₂_same]
  intro s hs
  rcases Option.or_eq_some_iff.mp (hsourced s hs) with hlabel | ⟨-, hvalue⟩
  · exact hlabels s.2 (List.mem_of_find?_eq_some hlabel)
  · exact hvalues s.2 (List.mem_reverse.mp (List.mem_of_find?_eq_some hvalue))

theorem value_typed {ctx : Context} {row : Row} {action : Option String}
    {result : Resolved.AltResult} {type : ValueType} {out out' : Emitted} {position : Nat}
    {captures : List Capture} (h : Yields (rowValue env ctx row action) out (result, type) out')
    (hfinal : Final p out') (hrow : RowTyped ctx.alternative position captures row) :
    result.Typed p captures type := by
  cases action with
  | some code =>
    obtain ⟨-, rfl, rfl, rfl⟩ := of_rowValue_some h
    refine ⟨_, extracted_onlyOne hp hfinal
      (List.mem_append_right _ (List.mem_singleton_self _)), rfl, rfl, ?_⟩
    rw [rowAction, List.forall₂_map_left_iff, List.forall₂_map_right_iff, List.forall₂_same]
    exact hrow.labels
  | none =>
    obtain ⟨-, hjoined⟩ := of_rowValue_none h
    have hcaptures : ∀ c ∈ row.valueCaptures, Holds captures c.1 c.2 := by
      unfold Row.valueCaptures
      split
      · intro c hc
        obtain ⟨b, hb, rfl⟩ := List.mem_map.mp hc
        exact hrow.labels b hb
      · exact hrow.plucks
    generalize row.valueCaptures = cs at hjoined hcaptures
    cases hjoined with
    | nothing => exact rfl
    | one => exact hcaptures _ (List.mem_singleton_self _)
    | several two texts =>
      refine ⟨rfl, by simpa using two, fun var hvar => ?_⟩
      obtain ⟨c, hc, rfl⟩ := List.mem_map.mp hvar
      exact texts c hc ▸ hcaptures c hc

end

/-! ## The rules of resolution are well typed -/

/-- A matcher that is neither a call nor a group is captured by its text. -/
def GivesText (m : Matcher) : Prop :=
  ∀ var, m.Gives ⟨var, .text, .text⟩

def typing (p : Parser) : Relations where
  alternatives _ _ out _ rs out' :=
    Grows out out' ∧ (Final p out' → Resolved.alternativesTyped p rs)
  alternative _ out _ r out' := Grows out out' ∧ (Final p out' → r.Typed p)
  elements ctx position row out es rs row' out' := Grows out out' ∧ (Final p out' → ∀ earlier,
    RowTyped ctx.alternative position earlier row → Resolved.elementsTyped p earlier rs ∧
      RowTyped ctx.alternative (position + es.length)
        (earlier ++ rs.filterMap (fun e => e.capture)) row')
  element ctx out _ r out' := Grows out out' ∧ (Final p out' → ∀ earlier,
    (∀ b ∈ ctx.labels, Holds earlier b.var b.type) →
    (∀ b ∈ ctx.ruleValues, Holds earlier b.var b.type) →
    r.element.matcher.Typed p earlier ∧ ∀ c, r.element.capture = some c →
      r.element.matcher.Gives c ∧ c.var = captureVar ctx.alternative ctx.position)
  quantified _ out body m out' := Grows out out' ∧
    (Final p out' → ∀ earlier, m.Typed p earlier) ∧ (isPlain body = false → GivesText m)
  expr _ out e m out' := Grows out out' ∧
    (Final p out' → ∀ earlier, m.Typed p earlier) ∧ (isPlain ⟨e, .one⟩ = false → GivesText m)

theorem classTests_ne_nil {items : List Grammar.ClassItem} (h : classDefect items = none) :
    classTests items ≠ [] := by
  cases items with
  | nil => cases h
  | cons item rest =>
    cases item with
    | range bottom top => simp [classTests]
    | char c =>
      rw [classTests]
      split <;> simp

theorem keptIf_typed {p : Parser} {kept : Bool} {ctx : Context} {plucked : Bool}
    {label rule : Option String} {m : Matcher} {type : ValueType} {source : Resolved.CaptureSource}
    {earlier : List Capture} (hm : m.Typed p earlier)
    (hgives : kept = true → m.Gives ⟨captureVar ctx.alternative ctx.position, type, source⟩) :
    (keptIf kept ctx plucked label rule m type source).element.matcher.Typed p earlier ∧
      ∀ c, (keptIf kept ctx plucked label rule m type source).element.capture = some c →
        (keptIf kept ctx plucked label rule m type source).element.matcher.Gives c ∧
          c.var = captureVar ctx.alternative ctx.position := by
  cases kept with
  | false => exact ⟨hm, fun _ h => (nomatch h)⟩
  | true =>
    refine ⟨hm, fun c hc => ?_⟩
    obtain rfl := Option.some.inj hc
    exact ⟨hgives rfl, rfl⟩

theorem groupChoice_typed {p : Parser} {kept : Bool} {ctx : Context}
    {rs : List Resolved.Alternative} (h : Resolved.alternativesTyped p rs) :
    (groupChoice kept ctx rs).Typed p := by
  refine ⟨h, fun var hvar => ?_⟩
  cases kept with
  | false => exact nomatch hvar
  | true => exact ⟨ctx.groupPath, (Option.some.inj hvar).symm⟩

theorem typing_closed {env : Env} {p : Parser} (hp : Agrees env p) : (typing p).Closed env where
  noAlternatives := ⟨.refl _, fun _ => trivial⟩
  moreAlternatives ha hrest :=
    ⟨((Grows.addNote _ _).trans ha.1).trans hrest.1, fun hfinal =>
      ⟨ha.2 (hfinal.of_grows hrest.1), hrest.2 hfinal⟩⟩
  row hes hvalue := by
    have hgrows := Grows.of_rowValue hvalue
    refine ⟨hes.1.trans hgrows, fun hfinal => ?_⟩
    obtain ⟨htyped, hrow⟩ := hes.2 (hfinal.of_grows hgrows) [] (.empty _)
    exact ⟨htyped, hrow.nodup, value_typed hp hvalue hfinal hrow⟩
  noElements := ⟨.refl _, fun _ earlier hrow => ⟨trivial, by simpa using hrow⟩⟩
  moreElements he hrest := by
    refine ⟨he.1.trans hrest.1, fun hfinal earlier hrow => ?_⟩
    obtain ⟨hm, hcapture⟩ := he.2 (hfinal.of_grows hrest.1) earlier hrow.labels hrow.ruleValues
    have hadd := hrow.add fun c hc => (hcapture c hc).2
    obtain ⟨htyped, hrow'⟩ := hrest.2 hfinal _ hadd
    refine ⟨Resolved.elementsTyped_cons.mpr
      ⟨hm, fun c hc => ⟨(hcapture c hc).1, _, _, (hcapture c hc).2⟩, htyped⟩, ?_⟩
    rw [Resolved.captures_cons, ← List.append_assoc, List.length_cons, Nat.add_comm _ 1,
      ← Nat.add_assoc]
    exact hrow'
  predicate h := ⟨.of_resolvePredicate h, fun hfinal _ hlabels hvalues =>
    ⟨predicate_typed hp h hfinal hlabels hvalues, fun _ hc => (nomatch hc)⟩⟩
  lookahead h := ⟨h.1, fun hfinal earlier _ _ => ⟨h.2.1 hfinal earlier, fun _ hc => (nomatch hc)⟩⟩
  reference _ hcall := ⟨.of_ruleCall hcall, fun hfinal _ _ _ =>
    keptIf_typed (call_typed hp hcall hfinal) fun _ => ⟨rfl, rfl⟩⟩
  group _ _ h htext := ⟨h.1, fun hfinal _ _ _ =>
    keptIf_typed (groupChoice_typed (h.2 hfinal)) fun hkeeps =>
      ⟨rfl, rfl, by rw [hkeeps]; rfl, fun r hr => eq_text_of_isText (htext hkeeps r hr)⟩⟩
  item _ hplain h := ⟨h.1, fun hfinal earlier _ _ =>
    keptIf_typed (h.2.1 hfinal earlier) fun _ => h.2.2 hplain _⟩
  once h := h
  repeated h _ := ⟨h.1.trans (.addNote _ _), fun hfinal earlier =>
    ⟨h.2.1 (hfinal.of_grows (.addNote _ _)) earlier, trivial⟩, fun _ _ => ⟨rfl, rfl⟩⟩
  separated h _ hs := ⟨(h.1.trans hs.1).trans (.addNote _ _), fun hfinal earlier =>
    have hfinal := hfinal.of_grows (.addNote _ _)
    ⟨h.2.1 (hfinal.of_grows hs.1) earlier, hs.2.1 hfinal earlier⟩, fun _ _ => ⟨rfl, rfl⟩⟩
  literal := ⟨.refl _, fun _ _ => trivial, fun _ _ => ⟨rfl, rfl⟩⟩
  charClass h := ⟨.refl _, fun _ _ => classTests_ne_nil h, fun _ _ => ⟨rfl, rfl⟩⟩
  ruleRef hcall := ⟨.of_ruleCall hcall, fun hfinal _ => call_typed hp hcall hfinal,
    fun h => (nomatch h)⟩
  anyChar := ⟨.refl _, fun _ _ => trivial, fun _ _ => ⟨rfl, rfl⟩⟩
  endOfInput := ⟨.refl _, fun _ _ => trivial, fun _ _ => ⟨rfl, rfl⟩⟩
  nested _ h := ⟨h.1, fun hfinal _ => ⟨h.2 hfinal, fun _ hvar => (nomatch hvar)⟩,
    fun h => (nomatch h)⟩

/-! ## Whole grammars -/

/-- The rules made of a list of rules, one by one. -/
theorem forall₂_of_rules {env : Env} {P : Grammar.Rule → Resolved.Rule → Prop} {final : Emitted}
    (hstep : ∀ {rule r out out'}, Yields (resolveRule env rule) out r out' →
      Grows out' final → P rule r) : ∀ {rules : List Grammar.Rule} {rs : List Resolved.Rule}
      {out : Emitted}, Yields (rules.mapM (resolveRule env)) out rs final → List.Forall₂ P rules rs
  | [], _, _, h => by
    obtain ⟨rfl, -⟩ := Yields.mapM_nil_iff.mp h
    exact .nil
  | _ :: _, _, _, h => by
    obtain ⟨r, mid, hr, rs, hrest, rfl⟩ := Yields.mapM_cons_iff.mp h
    exact .cons (hstep hr (.of_rules hrest)) (forall₂_of_rules hstep hrest)

/-- What a rule of a grammar and the rule made of it have in common. -/
structure Kept (env : Env) (rule : Grammar.Rule) (r : Resolved.Rule) : Prop where
  id : r.id = rule.id
  start : r.start = rule.start
  function : r.function = (env.info rule).function
  resultType : r.resultType = (env.info rule).resultType

theorem kept_of_resolveRule {env : Env} {rule : Grammar.Rule} {r : Resolved.Rule}
    {out out' : Emitted} (h : Yields (resolveRule env rule) out r out') : Kept env rule r := by
  obtain ⟨-, _, -, -, rfl⟩ := of_resolveRule h
  exact ⟨rfl, rfl, rfl, rfl⟩

section
variable {g : Grammar} {types : ActionTypes} {p : Parser}

theorem rules_kept (h : resolve g types = .ok p) :
    List.Forall₂ (Kept (.ofRules g.rules types)) g.rules p.rules := by
  obtain ⟨-, out, hrules, -, -⟩ := of_resolve h
  exact forall₂_of_rules (fun hr _ => kept_of_resolveRule hr) hrules

/-- The rules of the parser are those of the grammar, in their order. -/
theorem ids_kept (h : resolve g types = .ok p) :
    p.rules.map (fun r => r.id) = g.rules.map (fun r => r.id) :=
  map_eq_map ((rules_kept h).flip.imp fun _ _ hk => hk.id)

theorem nodup_ids (h : resolve g types = .ok p) : (p.rules.map (fun r => r.id)).Nodup := by
  rw [ids_kept h]
  exact (sound_of_rulesDefect (of_resolve h).1).1

/-- A rule of the parser was made of one of the grammar, and has its entry. -/
structure MadeOf (g : Grammar) (types : ActionTypes) (rule : Grammar.Rule) (base : BaseName)
    (r : Resolved.Rule) : Prop where
  mem : rule ∈ g.rules
  named : (RuleNames.ofIds (g.rules.map (fun r => r.id))).base rule.id = some base
  info : (Env.ofRules g.rules types).rule rule.id = some (entry types rule base)
  id : r.id = rule.id
  start : r.start = rule.start
  function : r.function = ruleFunction base
  resultType : r.resultType = ruleResult rule types

theorem exists_madeOf (h : resolve g types = .ok p) {r : Resolved.Rule} (hr : r ∈ p.rules) :
    ∃ rule base, MadeOf g types rule base r := by
  obtain ⟨rule, hrule, hk⟩ := exists_left (rules_kept h) hr
  obtain ⟨base, hbase, hinfo⟩ :=
    rule_ofRules_of_mem types (sound_of_rulesDefect (of_resolve h).1).1 hrule
  have hentry := info_of_rule hinfo
  refine ⟨rule, base, hrule, hbase, hinfo, hk.id, hk.start, ?_, ?_⟩
  · rw [hk.function, hentry]
    rfl
  · rw [hk.resultType, hentry]
    rfl

theorem exists_made (h : resolve g types = .ok p) {rule : Grammar.Rule} (hrule : rule ∈ g.rules) :
    ∃ r ∈ p.rules, ∃ base, MadeOf g types rule base r := by
  obtain ⟨r, hr, hk⟩ := exists_left (rules_kept h).flip hrule
  obtain ⟨other, base, hmade⟩ := exists_madeOf h hr
  obtain rfl : other = rule := List.inj_on_of_nodup_map
    (sound_of_rulesDefect (of_resolve h).1).1 hmade.mem hrule (hmade.id.symm.trans hk.id)
  exact ⟨r, hr, base, hmade⟩

/-- Rules have functions of their own. -/
theorem nodup_ruleFunctions (h : resolve g types = .ok p) :
    (p.rules.map (fun r => r.function)).Nodup := by
  have hids := nodup_ids h
  refine List.Nodup.map_on (fun r hr s hs hfunction => ?_) hids.of_map
  obtain ⟨rule, base, hmade⟩ := exists_madeOf h hr
  obtain ⟨rule', base', hmade'⟩ := exists_madeOf h hs
  rw [hmade.function, hmade'.function] at hfunction
  refine List.inj_on_of_nodup_map hids hr hs ?_
  rw [hmade.id, hmade'.id]
  exact Naming.base_inj hmade.named hmade'.named (Naming.ruleFunction_inj hfunction)

theorem nodup_actions (h : resolve g types = .ok p) :
    (p.actions.map (fun f => f.function)).Nodup := by
  obtain ⟨_, out, hn, hactions, -⟩ := actions_of_resolve h
  exact hactions ▸ hn.nodup

theorem exists_actionName (h : resolve g types = .ok p) {f : Resolved.Action}
    (hf : f ∈ p.actions) : ∃ base k,
      f.function = predicateFunction base k ∨ f.function = actionFunction base k := by
  obtain ⟨_, out, hn, hactions, -⟩ := actions_of_resolve h
  obtain ⟨_, base, k, _, ⟨hname, _⟩ | ⟨hname, _⟩⟩ := hn.issued f (hactions ▸ hf)
  · exact ⟨base, k, .inl hname⟩
  · exact ⟨base, k, .inr hname⟩

/-- The functions of a parser have names of their own. -/
theorem nodup_functions (h : resolve g types = .ok p) :
    (p.rules.map (fun r => r.function) ++ p.actions.map (fun f => f.function)).Nodup := by
  refine List.Nodup.append (nodup_ruleFunctions h) (nodup_actions h) ?_
  intro name hrule haction
  obtain ⟨r, hr, rfl⟩ := List.mem_map.mp hrule
  obtain ⟨f, hf, hname⟩ := List.mem_map.mp haction
  obtain ⟨rule, base, hmade⟩ := exists_madeOf h hr
  obtain ⟨base', k, hf | hf⟩ := exists_actionName h hf
  · refine Naming.ne_of_word ?_ (hf.symm.trans (hname.trans hmade.function))
    rw [Naming.word_predicateFunction, Naming.word_ruleFunction]
    decide
  · refine Naming.ne_of_word ?_ (hf.symm.trans (hname.trans hmade.function))
    rw [Naming.word_actionFunction, Naming.word_ruleFunction]
    decide

/-- The rule table promises what the parser has. -/
theorem agrees (h : resolve g types = .ok p) : Agrees (.ofRules g.rules types) p where
  calls target info hinfo := by
    obtain ⟨rule, hrule, base, hbase, rfl, rfl⟩ := rule_ofRules_some hinfo
    obtain ⟨r, hr, base', hmade⟩ := exists_made h hrule
    obtain rfl : base' = base := Option.some.inj (hmade.named.symm.trans hbase)
    refine ⟨r, ?_, ?_, hmade.resultType⟩
    · rw [← hmade.id]
      exact onlyOne_of_nodup (nodup_ids h) hr
    · show OnlyOne p.rules (fun s => s.function == ruleFunction base') r
      rw [← hmade.function]
      exact onlyOne_of_nodup (nodup_ruleFunctions h) hr
  actions := nodup_actions h

theorem sameAs_of_typeConflict {out : Emitted} {rule : String} {expected : ValueType}
    {rs : List Resolved.Alternative} (h : typeConflict out rule expected rs = none)
    (hout : out.unresolved = []) : ∀ a ∈ rs, a.resultType.sameAs expected = true := by
  intro a ha
  obtain ⟨i, hi, rfl⟩ := List.mem_iff_getElem.mp ha
  have := List.findSome?_eq_none_iff.mp h (rs[i], i) (List.mk_mem_zipIdx_iff_getElem?.mpr (by simp [hi]))
  simpa [Emitted.hasUnresolved, hout] using this

/-- A rule made without undefined references is well typed. -/
theorem rule_typed {env : Env} (hp : Agrees env p) {rule : Grammar.Rule} {r : Resolved.Rule}
    {out out' : Emitted} (h : Yields (resolveRule env rule) out r out') (hfinal : Final p out') :
    r.Typed p := by
  obtain ⟨-, rs, hrs, hconflict, rfl⟩ := of_resolveRule h
  exact ⟨rfl, ((typing_closed hp).alternatives _ hrs).2 hfinal,
    sameAs_of_typeConflict hconflict hfinal.unresolved⟩

end

/-- Every parser that resolution returns is well typed. -/
theorem typed_of_resolve {g : Grammar} {types : ActionTypes} {p : Parser}
    (h : resolve g types = .ok p) : p.Typed := by
  obtain ⟨hdefect, out, hrules, hunresolved, hactions⟩ := of_resolve h
  refine ⟨?_, nodup_ids h, nodup_functions h, fun r hr => ?_, fun f hf => exists_actionName h hf,
    fun r hr => ?_⟩
  · obtain ⟨start, hstart⟩ := (sound_of_rulesDefect hdefect).2
    have hfilter := List.rel_filter (p := fun r => r.start) (q := fun r => r.start)
      (fun _ _ hk => iff_of_eq (congrArg (· = true) hk.start.symm)) (rules_kept h)
    rw [hstart, List.forall₂_cons_left_iff] at hfilter
    obtain ⟨r, rest, -, hrest, hr⟩ := hfilter
    rw [List.forall₂_nil_left_iff.mp hrest] at hr
    exact ⟨r, hr⟩
  · obtain ⟨_, base, hmade⟩ := exists_madeOf h hr
    exact ⟨base, hmade.function⟩
  · have hall := forall₂_of_rules (P := fun _ r => r.Typed p)
      (fun hstep hgrows => rule_typed (agrees h) hstep
        (Final.of_grows ⟨hactions ▸ List.prefix_refl _, hunresolved⟩ hgrows)) hrules
    obtain ⟨_, _, htyped⟩ := exists_left hall hr
    exact htyped

/-- **Resolution is well typed.** A parser that it returns has the rules of the grammar
in their order, with exactly one start rule, and every call, capture, value and
extracted function of it agrees in its type with what it refers to. -/
theorem resolve_wellTyped {g : Grammar} {types : ActionTypes} {p : Parser}
    (h : resolve g types = .ok p) :
    p.rules.map (fun r => (r.id, r.start)) = g.rules.map (fun r => (r.id, r.start)) ∧ p.Typed :=
  ⟨map_eq_map ((rules_kept h).flip.imp fun _ _ hk => Prod.ext hk.id hk.start), typed_of_resolve h⟩

/-- Digits, with a check and an action on them. -/
def number : Grammar where
  rules := [
    ⟨"Number", true, [⟨[.item false (some "x") ⟨.ruleRef "Digits", .one⟩,
      .check false (.predicate ⟨[⟨"d", "x"⟩], "logical", "res = len(d) < 5"⟩)],
      some "res = x"⟩]⟩,
    ⟨"Digits", false, [⟨[.item false none ⟨.class [.range '0' '9'], .oneOrMore⟩], none⟩]⟩]

def numberParser : Parser where
  rules := [
    ⟨"Number", "peg_number", true, .text,
      ⟨[⟨[⟨.call ⟨"Digits", "peg_digits", .text⟩, some ⟨"capture_0_0", .text, .value⟩⟩,
          ⟨.predicate false ⟨"pred_number_0", ["capture_0_0"]⟩, none⟩],
        .action ⟨"action_number_0", ["capture_0_0"]⟩, .text⟩], some "res"⟩⟩,
    ⟨"Digits", "peg_digits", false, .text,
      ⟨[⟨[⟨.repeat (.class [.range '0' '9']) (.count 1) none none, none⟩], .consumed, .text⟩],
        some "res"⟩⟩]
  actions := [
    ⟨.predicate, "pred_number_0", [⟨"d", .text⟩], .declared "logical", "res = len(d) < 5"⟩,
    ⟨.action, "action_number_0", [⟨"x", .text⟩], .text, "res = x"⟩]

theorem resolve_number : resolve number {} = .ok numberParser := by
  cbv

theorem number_wellTyped : resolve number {} = .ok numberParser ∧
    numberParser.rules.map (fun r => (r.id, r.start)) = [("Number", true), ("Digits", false)] ∧
    numberParser.Typed :=
  ⟨resolve_number, resolve_wellTyped resolve_number⟩

end PegCompiler.Resolution
