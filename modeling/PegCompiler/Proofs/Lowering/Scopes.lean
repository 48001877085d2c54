import PegCompiler.Proofs.Lowering.States
import PegCompiler.Proofs.Resolved.Typed
import PegCompiler.Proofs.Yields
/-
  Scopes grow. Lowering a well-typed matcher never fails, and it only adds numbers and
  variables to the scope (`Makes`). Variables without a number of their own are those
  of groups and those for values that nobody reads.
-/

namespace PegCompiler.Lowering

open Naming (word)
open Resolved (Alternative Bound Choice Element Matcher Parser RuleCall ValueType)
open Target (Stmt)

/-- A variable of a scope with a type of its own is that of a group, or for values that
nobody reads. -/
def Named (s : Scope) : Prop :=
  ∀ v ∈ s.others, word v.1 = "scratch".toList ∨ word v.1 = "group".toList

/-- Numbers and variables are added only. -/
structure Grows (s t : Scope) : Prop where
  counter : s.counter ≤ t.counter
  names : s.names ⊆ t.names
  named : Named s → Named t

namespace Grows

theorem refl (s : Scope) : Grows s s :=
  ⟨Nat.le_refl _, List.Subset.refl _, id⟩

theorem trans {s t u : Scope} (h : Grows s t) (h' : Grows t u) : Grows s u :=
  ⟨Nat.le_trans h.counter h'.counter, List.Subset.trans h.names h'.names, h'.named ∘ h.named⟩

theorem fresh (s : Scope) : Grows s s.fresh.2 :=
  ⟨Nat.le_succ _, List.Subset.refl _, id⟩

theorem integer (s : Scope) (w : String) (k : Nat) : Grows s (s.integer w k).2 where
  counter := Nat.le_refl _
  names := by
    simp only [Scope.names, Scope.integer]
    intro name hname
    simp only [List.mem_append] at hname ⊢
    tauto
  named := id

theorem logical (s : Scope) (w : String) (k : Nat) : Grows s (s.logical w k).2 where
  counter := Nat.le_refl _
  names := by
    simp only [Scope.names, Scope.logical]
    intro name hname
    simp only [List.mem_append] at hname ⊢
    tauto
  named := id

/-- One more variable with a type of its own. -/
theorem other {s t : Scope} {v : String × ValueType} (hcounter : s.counter ≤ t.counter)
    (hints : t.integers = s.integers) (hlogicals : t.logicals = s.logicals)
    (hothers : t.others = s.others ++ [v])
    (hv : word v.1 = "scratch".toList ∨ word v.1 = "group".toList) : Grows s t where
  counter := hcounter
  names := by
    simp only [Scope.names, hints, hlogicals, hothers, List.map_append]
    intro name hname
    simp only [List.mem_append] at hname ⊢
    tauto
  named h u hu := by
    rw [hothers] at hu
    rcases List.mem_append.mp hu with hu | hu
    · exact h u hu
    · exact List.mem_singleton.mp hu ▸ hv

theorem scratch (s : Scope) (type : ValueType) : Grows s (s.scratch type).2 := by
  unfold Scope.scratch
  split
  · exact refl s
  · exact other (Nat.le_succ _) rfl rfl rfl (.inl (Naming.word_numbered _ (by decide)))

theorem declare (s : Scope) {name : String} (type : ValueType)
    (hname : word name = "group".toList) : Grows s (s.declare name type) := by
  unfold Scope.declare
  split
  · exact refl s
  · exact other (Nat.le_refl _) rfl rfl rfl (.inr hname)

end Grows

theorem integer_mem (s : Scope) (w : String) (k : Nat) :
    numbered w k ∈ (s.integer w k).2.names := by
  simp [Scope.names, Scope.integer]

theorem logical_mem (s : Scope) (w : String) (k : Nat) :
    numbered w k ∈ (s.logical w k).2.names := by
  simp [Scope.names, Scope.logical]

theorem declare_mem (s : Scope) (name : String) (type : ValueType) :
    name ∈ (s.declare name type).names := by
  unfold Scope.declare
  split
  next h =>
    obtain ⟨v, hv, hname⟩ := List.any_eq_true.mp h
    exact List.mem_append_right _ (List.mem_map.mpr ⟨v, hv, by simpa using hname⟩)
  next => simp [Scope.names]

/-- The variable for values that nobody reads is one of a scope. -/
theorem scratch_mem (s : Scope) (type : ValueType) :
    (s.scratch type).1 ∈ (s.scratch type).2.names ∧
      (Named s → word (s.scratch type).1 = "scratch".toList ∨
        word (s.scratch type).1 = "group".toList) := by
  unfold Scope.scratch
  split
  next v hv =>
    have hmem := List.mem_of_find?_eq_some hv
    exact ⟨List.mem_append_right _ (List.mem_map_of_mem hmem), fun h => h v hmem⟩
  next =>
    refine ⟨?_, fun _ => .inl (Naming.word_numbered _ (by decide))⟩
    simp [Scope.names, Scope.fresh]

/-! ## Lowering never fails -/

/-- The variable of a choice is that of a function or of a group. -/
def ResultNamed (result : Option String) : Prop :=
  ∀ var, result = some var → var = Resolved.resultVar ∨ word var = "group".toList

/-- A lowering that ends with a result, and with a scope that has grown. -/
def Makes {α : Type} (x : Lower α) : Prop :=
  ∀ s, ∃ a t, Yields x s a t ∧ Grows s t

namespace Makes

variable {α β : Type}

theorem pure' (a : α) : Makes (pure a) := fun s => ⟨a, s, by simp, .refl s⟩

theorem bind {x : Lower α} {f : α → Lower β} (hx : Makes x) (hf : ∀ a, Makes (f a)) :
    Makes (x >>= f) := by
  intro s
  obtain ⟨a, t, ha, hst⟩ := hx s
  obtain ⟨b, u, hb, htu⟩ := hf a t
  exact ⟨b, u, Yields.bind_iff.mpr ⟨a, t, ha, hb⟩, hst.trans htu⟩

theorem map {x : Lower α} (f : α → β) (hx : Makes x) : Makes (f <$> x) := by
  intro s
  obtain ⟨a, t, ha, hst⟩ := hx s
  exact ⟨f a, t, Yields.map_iff.mpr ⟨a, ha, rfl⟩, hst⟩

theorem modifyGet {f : Scope → α × Scope} (h : ∀ s, Grows s (f s).2) :
    Makes (modifyGet f : Lower α) :=
  fun s => ⟨(f s).1, (f s).2, Yields.modifyGet_iff.mpr rfl, h s⟩

theorem modify {f : Scope → Scope} (h : ∀ s, Grows s (f s)) : Makes (modify f : Lower Unit) :=
  fun s => ⟨⟨⟩, f s, Yields.modify_iff.mpr rfl, h s⟩

theorem lift {x : Except Failure α} {a : α} (h : x = .ok a) : Makes (liftM x : Lower α) :=
  fun s => ⟨a, s, Yields.lift_iff.mpr ⟨h, rfl⟩, .refl s⟩

theorem fresh : Makes fresh := modifyGet Grows.fresh

theorem integer (w : String) (k : Nat) : Makes (integer w k) := modifyGet fun s => .integer s w k

theorem keepBound (w : String) (k : Nat) (b : Option Bound) : Makes (keepBound w k b) := by
  unfold Lowering.keepBound
  split
  · exact (modifyGet fun s => .integer s w k).bind fun _ => pure' _
  · exact pure' _

theorem enterChoice {result : Option String} (h : ResultNamed result) :
    Makes (enterChoice result) := by
  refine fresh.bind fun k => (integer _ k).bind fun save => bind ?_ fun _ => pure' _
  cases result with
  | none => exact pure' _
  | some var =>
    unfold declareResult
    dsimp only
    split
    · exact pure' _
    next hne => exact modify fun s => .declare s _ ((h var rfl).resolve_left (by simpa using hne))

/-- What a run leaves behind has grown. -/
theorem grows {x : Lower α} {s t : Scope} {a : α} (hx : Makes x) (h : Yields x s a t) :
    Grows s t := by
  obtain ⟨b, u, hb, hgrows⟩ := hx s
  unfold Yields at h hb
  obtain ⟨-, rfl⟩ := Prod.mk.inj (h.symm.trans hb)
  exact hgrows

end Makes

theorem function_ne_empty {p : Parser} (hp : p.Typed) {call : RuleCall} (h : call.Typed p) :
    call.function.isEmpty = false := by
  obtain ⟨r, -, hr, -⟩ := h
  obtain ⟨base, hbase⟩ := hp.ruleNames r hr.mem
  have hfunction : r.function = call.function := by simpa using hr.holds
  rw [← hfunction, hbase, Bool.eq_false_iff, ne_eq, String.isEmpty_iff]
  refine Naming.ne_of_word ?_
  rw [Naming.word_ruleFunction]
  decide

theorem callRule_ok {p : Parser} (hp : p.Typed) {call : RuleCall} (h : call.Typed p)
    (into : String) (fail : List Stmt) :
    callRule call into fail = .ok (failUnless (.call call.function [.var into]) fail) := by
  unfold callRule
  rw [function_ne_empty hp h]
  rfl

theorem resultNamed_of_typed {p : Parser} {c : Choice} (h : c.Typed p) : ResultNamed c.result := by
  obtain ⟨alternatives, result⟩ := c
  rw [Choice.Typed] at h
  intro var hvar
  obtain ⟨path, rfl⟩ := h.2 var hvar
  exact .inr (Naming.word_groupVar path)

/-! ## Captured elements -/

theorem lowerElement_call (fail : List Stmt) (call : RuleCall) {capture : Resolved.Capture}
    (h : capture.source = .value) : lowerElement fail ⟨.call call, some capture⟩ = (do
      let stmt ← callRule call capture.var fail
      pure [stmt]) := by
  obtain ⟨var, type, source⟩ := capture
  subst h
  rw [lowerElement]

theorem lowerElement_group (fail : List Stmt) (as : List Alternative) (group : String)
    {capture : Resolved.Capture} (h : capture.source = .value) :
    lowerElement fail ⟨.choice ⟨as, some group⟩, some capture⟩ = (do
      let (stmts, _) ← lowerChoice fail ⟨as, some group⟩
      pure (stmts ++ [.assign capture.var (.var group)])) := by
  obtain ⟨var, type, source⟩ := capture
  subst h
  rw [lowerElement]

theorem lowerElement_text (fail : List Stmt) (m : Matcher) {capture : Resolved.Capture}
    (h : capture.source = .text) : lowerElement fail ⟨m, some capture⟩ = (do
      let k ← fresh
      let mark ← integer "mark" k
      let stmts ← lowerMatcher fail m
      pure ([keep mark] ++ stmts ++ [.assign capture.var (consumedSince mark)])) := by
  obtain ⟨var, type, source⟩ := capture
  subst h
  rw [lowerElement]
  · rintro call var' type' rfl h
    cases h
  · rintro as group var' type' rfl h
    cases h

theorem Makes.capturedText {fail : List Stmt} {m : Matcher} {capture : Resolved.Capture}
    (hsource : capture.source = .text) (hm : Makes (lowerMatcher fail m)) :
    Makes (lowerElement fail ⟨m, some capture⟩) := by
  rw [lowerElement_text _ _ hsource]
  exact fresh.bind fun k => (integer _ k).bind fun _ => hm.bind fun _ => pure' _

/-! ## Every lowering ends -/

namespace Makes

variable {p : Parser}

mutual

theorem matcher (hp : p.Typed) (fail : List Stmt) : ∀ (m : Matcher)
    {earlier : List Resolved.Capture}, m.Typed p earlier → Makes (lowerMatcher fail m)
  | .literal value, _, _ => by
    rw [lowerMatcher]
    exact pure' _
  | .class tests, _, h => by
    rw [Matcher.Typed] at h
    rw [lowerMatcher]
    obtain ⟨stmt, hstmt⟩ : ∃ stmt, classStmt fail tests = .ok stmt := by
      unfold classStmt
      split
      · exact absurd rfl h
      · exact ⟨_, rfl⟩
      · exact ⟨_, rfl⟩
    exact (lift hstmt).bind fun _ => pure' _
  | .anyChar, _, _ => by
    rw [lowerMatcher]
    exact pure' _
  | .endOfInput, _, _ => by
    rw [lowerMatcher]
    exact pure' _
  | .call c, _, h => by
    rw [Matcher.Typed] at h
    rw [lowerMatcher]
    exact (modifyGet fun s => .scratch s _).bind fun _ =>
      (lift (callRule_ok hp h _ fail)).bind fun _ => pure' _
  | .choice c, _, h => by
    rw [Matcher.Typed] at h
    rw [lowerMatcher]
    exact (choice hp fail c h).bind fun _ => pure' _
  | .repeat body min max sep, _, h => by
    rw [Matcher.Typed] at h
    rw [lowerMatcher]
    refine fresh.bind fun k => (integer _ k).bind fun count => (keepBound _ k _).bind fun lo =>
      (keepBound _ k _).bind fun hi => ?_
    dsimp only
    -- the variable `save` is there only where too few turns are possible
    have hrest (save : Option String) := (integer "mark" k).bind fun mark =>
      (separator hp [restore mark, .exit (some (numbered "rep" k))] sep h.2).bind fun separator =>
      (matcher hp [restore mark, .exit (some (numbered "rep" k))] body h.1).bind fun body =>
      pure' (lo.2 ++ hi.2 ++ (save.map keep).toList ++ [.assign count (.int 0),
        repeatLoop (numbered "rep" k) count mark hi.1 max separator body] ++ match save with
          | some save =>
            [.when (.bin .lt (.var count) (boundExpr lo.1 min)) (restore save :: fail)]
          | none => [])
    split
    · exact ((integer _ k).map _).bind hrest
    · exact (pure' _).bind hrest
  | .lookahead negated body, _, h => by
    rw [Matcher.Typed] at h
    rw [lowerMatcher]
    exact fresh.bind fun k => (integer _ k).bind fun save =>
      (modifyGet fun s => .logical s _ k).bind fun ok => (matcher hp _ body h).bind fun _ => pure' _
  | .predicate negated c, _, _ => by
    rw [lowerMatcher]
    exact pure' _

theorem separator (hp : p.Typed) (fail : List Stmt) : ∀ (sep : Option Matcher)
    {earlier : List Resolved.Capture}, Resolved.separatorTyped p earlier sep →
      Makes (lowerSeparator fail sep)
  | none, _, _ => by
    rw [lowerSeparator]
    exact pure' _
  | some m, _, h => by
    rw [Resolved.separatorTyped] at h
    rw [lowerSeparator]
    exact (matcher hp fail m h).map _

theorem choice (hp : p.Typed) (fail : List Stmt) : ∀ (c : Choice), c.Typed p →
    Makes (lowerChoice fail c)
  | ⟨as, result⟩, h => by
    have hnamed := resultNamed_of_typed h
    rw [Choice.Typed] at h
    exact choiceOf hp fail as h.1 hnamed

theorem choiceOf (hp : p.Typed) (fail : List Stmt) {result : Option String} :
    ∀ (as : List Alternative), Resolved.alternativesTyped p as → ResultNamed result →
      Makes (lowerChoice fail ⟨as, result⟩)
  | [], _, hnamed => by
    rw [lowerChoice]
    · exact (enterChoice hnamed).bind fun _ => (integer _ _).bind fun _ =>
        bind (by rw [lowerAlternatives]; exact pure' _) fun _ => pure' _
    · simp
  | [a], h, hnamed => by
    rw [Resolved.alternativesTyped] at h
    rw [lowerChoice]
    exact (enterChoice hnamed).bind fun _ => (alternative hp _ result _ a h.1).bind fun _ => pure' _
  | a :: b :: rest, h, hnamed => by
    rw [Resolved.alternativesTyped] at h
    rw [lowerChoice]
    · refine (enterChoice hnamed).bind fun _ => (integer _ _).bind fun _ => bind ?_ fun _ => pure' _
      rw [lowerAlternatives]
      exact (alternative hp _ result _ a h.1).bind fun _ =>
        (alternatives hp _ result _ (b :: rest) h.2).bind fun _ => pure' _
    · simp

theorem alternatives (hp : p.Typed) (save : String) (result : Option String) (fail : List Stmt) :
    ∀ (as : List Alternative), Resolved.alternativesTyped p as →
      Makes (lowerAlternatives save result fail as)
  | [], _ => by
    rw [lowerAlternatives]
    exact pure' _
  | a :: rest, h => by
    rw [Resolved.alternativesTyped] at h
    rw [lowerAlternatives]
    exact (alternative hp save result fail a h.1).bind fun _ =>
      (alternatives hp save result fail rest h.2).bind fun _ => pure' _

theorem alternative (hp : p.Typed) (save : String) (result : Option String) (fail : List Stmt) :
    ∀ (a : Alternative), a.Typed p → Makes (lowerAlternative save result fail a)
  | ⟨es, value, type⟩, h => by
    rw [Alternative.Typed] at h
    rw [lowerAlternative]
    exact (elements hp fail es h.1).bind fun _ => pure' _

theorem elements (hp : p.Typed) (fail : List Stmt) : ∀ (es : List Element)
    {earlier : List Resolved.Capture}, Resolved.elementsTyped p earlier es →
      Makes (lowerElements fail es)
  | [], _, _ => by
    rw [lowerElements]
    exact pure' _
  | e :: rest, _, h => by
    rw [Resolved.elementsTyped_cons] at h
    rw [lowerElements]
    exact (element hp fail e h.1 fun c hc => (h.2.1 c hc).1).bind fun _ =>
      (elements hp fail rest h.2.2).bind fun _ => pure' _

theorem element (hp : p.Typed) (fail : List Stmt) : ∀ (e : Element)
    {earlier : List Resolved.Capture}, e.matcher.Typed p earlier →
      (∀ c, e.capture = some c → e.matcher.Gives c) → Makes (lowerElement fail e)
  | ⟨m, none⟩, _, h, _ => by
    rw [lowerElement]
    exact matcher hp fail m h
  | ⟨.call c, some capture⟩, _, h, hgives => by
    obtain ⟨hsource, -⟩ := hgives capture rfl
    rw [Matcher.Typed] at h
    rw [lowerElement_call _ _ hsource]
    exact (lift (callRule_ok hp h _ fail)).bind fun _ => pure' _
  | ⟨.choice ⟨as, some group⟩, some capture⟩, _, h, hgives => by
    obtain ⟨hsource, -⟩ := hgives capture rfl
    rw [Matcher.Typed] at h
    rw [lowerElement_group _ _ _ hsource]
    exact (choice hp fail ⟨as, some group⟩ h).bind fun _ => pure' _
  | ⟨.choice ⟨_, none⟩, some capture⟩, _, _, hgives => nomatch (hgives capture rfl).2.2.1
  | ⟨.literal _, some capture⟩, _, h, hgives =>
    capturedText (hgives capture rfl).1 (matcher hp fail _ h)
  | ⟨.class _, some capture⟩, _, h, hgives =>
    capturedText (hgives capture rfl).1 (matcher hp fail _ h)
  | ⟨.anyChar, some capture⟩, _, h, hgives =>
    capturedText (hgives capture rfl).1 (matcher hp fail _ h)
  | ⟨.endOfInput, some capture⟩, _, h, hgives =>
    capturedText (hgives capture rfl).1 (matcher hp fail _ h)
  | ⟨.repeat .., some capture⟩, _, h, hgives =>
    capturedText (hgives capture rfl).1 (matcher hp fail _ h)
  | ⟨.lookahead .., some capture⟩, _, h, hgives =>
    capturedText (hgives capture rfl).1 (matcher hp fail _ h)
  | ⟨.predicate .., some capture⟩, _, h, hgives =>
    capturedText (hgives capture rfl).1 (matcher hp fail _ h)

end

end Makes

end PegCompiler.Lowering
