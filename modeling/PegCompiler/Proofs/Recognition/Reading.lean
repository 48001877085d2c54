import PegCompiler.Proofs.Recognition.Peg
import PegCompiler.Proofs.Semantics.Grammar
/-
  The parsing expressions of a grammar. Rows become sequences, quantifiers become what
  they abbreviate, and labels, plucks and actions disappear. A grammar without code that
  decides what matches stops where its parsing expressions stop, call by call
  (`call_stops`).
-/

namespace PegCompiler

namespace Peg

/-- At least `min` matches. -/
def atLeast (body : Peg) : (min : Nat) → Peg
  | 0 => .star body
  | min + 1 => .seq body (atLeast body min)

/-- A number of matches with something in between each two. -/
def separated (body separator : Peg) : (count : Nat) → Peg
  | 0 => .empty
  | count + 1 => .seq body (between (.seq separator body) count count)

end Peg

namespace Grammar

open Semantics (Host Outcome consumed nothing repetition stopChar stopEnd stopText turn turns)
open Peg (Derives StopsFrom)

/-! ## Parsing expressions -/

mutual

/-- The parsing expression of a choice. -/
def alternativesPeg : List Alternative → Peg
  | [] => Peg.fail
  | a :: rest => .choice a.peg (alternativesPeg rest)

/-- The parsing expression of a row. -/
def Alternative.peg : Alternative → Peg
  | ⟨elements, _⟩ => elementsPeg elements

def elementsPeg : List Element → Peg
  | [] => .empty
  | e :: rest => .seq e.peg (elementsPeg rest)

/-- The parsing expression of an element; there is none for a predicate. -/
def Element.peg : Element → Peg
  | .item _ _ body => body.peg
  | .check true (.lookahead body) => .not body.peg
  | .check false (.lookahead body) => .and body.peg
  | .check _ (.predicate _) => Peg.fail

/-- The parsing expression of a repetition; there is none for bounds in code. -/
def Quantified.peg : Quantified → Peg
  | ⟨expr, .one⟩ => expr.peg
  | ⟨expr, .optional⟩ => .choice expr.peg .empty
  | ⟨expr, .zeroOrMore⟩ => .star expr.peg
  | ⟨expr, .oneOrMore⟩ => .seq expr.peg (.star expr.peg)
  | ⟨expr, .exact count⟩ => expr.peg.between count.toNat count.toNat
  | ⟨expr, .range min none⟩ => expr.peg.atLeast ((min.map UInt32.toNat).getD 0)
  | ⟨expr, .range min (some max)⟩ =>
    expr.peg.between ((min.map UInt32.toNat).getD 0) max.toNat
  | ⟨expr, .separated count separator⟩ => expr.peg.separated separator.peg count.toNat
  | ⟨_, .computed _ _⟩ => Peg.fail

def Expr.peg : Expr → Peg
  | .literal value => .text value.toList
  | .class items => .char fun c => items.any (ClassItem.contains c)
  | .ruleRef target => .ref target
  | .anyChar => .char fun _ => true
  | .endOfInput => Peg.atEnd
  | .group alternatives => alternativesPeg alternatives

end

mutual

/-- No predicates, no bounds in code, and no open range with a minimum above 1. -/
def alternativesPlain : List Alternative → Bool
  | [] => true
  | a :: rest => a.plain && alternativesPlain rest

def Alternative.plain : Alternative → Bool
  | ⟨elements, _⟩ => elementsPlain elements

def elementsPlain : List Element → Bool
  | [] => true
  | e :: rest => e.plain && elementsPlain rest

def Element.plain : Element → Bool
  | .item _ _ body => body.plain
  | .check _ (.lookahead body) => body.plain
  | .check _ (.predicate _) => false

def Quantified.plain : Quantified → Bool
  | ⟨expr, .one⟩ => expr.plain
  | ⟨expr, .optional⟩ => expr.plain
  | ⟨expr, .zeroOrMore⟩ => expr.plain
  | ⟨expr, .oneOrMore⟩ => expr.plain
  | ⟨expr, .exact _⟩ => expr.plain
  | ⟨expr, .range min none⟩ => (min.map UInt32.toNat).getD 0 ≤ 1 && expr.plain
  | ⟨expr, .range _ (some _)⟩ => expr.plain
  | ⟨expr, .separated _ separator⟩ => expr.plain && separator.plain
  | ⟨_, .computed _ _⟩ => false

def Expr.plain : Expr → Bool
  | .group alternatives => alternativesPlain alternatives
  | _ => true

end

/-- A grammar is plain if its rules are. -/
def Plain (g : Grammar) : Prop :=
  ∀ rule ∈ g.rules, alternativesPlain rule.alternatives = true

/-- The rules as parsing expressions: the body of a rule, whoever refers to it. -/
def bodies (g : Grammar) (id : String) : Option Peg :=
  (g.rule id).map fun rule => alternativesPeg rule.alternatives

/-- The rules as parsing expressions, where the start rule matches only up to the end of
the input, whoever refers to it. -/
def closedBodies (g : Grammar) (id : String) : Option Peg :=
  (g.rule id).map fun rule =>
    if rule.start then .seq (alternativesPeg rule.alternatives) Peg.atEnd
    else alternativesPeg rule.alternatives

/-! ## Repetitions -/

section
variable {V : Type} {H : Host V} {input : List Char} {calls : String → Nat → Option (Option Nat)}
  {e : Peg}

theorem stop?_consumed (pos : Nat) (stop : Option Nat) :
    (consumed H input pos stop).stop? = stop := by
  cases stop <;> rfl

/-- Only whether there were enough turns matters. -/
def enough (min : Int) (r : Nat × Nat) : Option Nat :=
  if (r.1 : Int) < min then none else some r.2

theorem stop?_repetition (min : Int) (max : Option Int) (between : Nat → Option (Option Nat))
    (body : Nat → Option (Outcome V)) (pos : Nat) :
    (repetition H input min max between body pos).map Outcome.stop? =
      (turns max.isSome (turn between body) (Semantics.turnLimit input pos max) 0 pos).map
        (enough min) := by
  unfold repetition
  rcases turns max.isSome (turn between body) _ 0 pos with _ | ⟨count, stop⟩
  · rfl
  · exact congrArg some (stop?_consumed pos _)

theorem between_zero_ne {n pos : Nat} : (e.between 0 n).run input calls pos ≠ some none := by
  intro h
  cases n with
  | zero => cases h
  | succ n =>
    rw [Peg.between, Peg.run] at h
    simp only [Option.bind_eq_bind, Option.bind_eq_some_iff] at h
    obtain ⟨first, -, h⟩ := h
    cases first with
    | none => cases h
    | some _ => cases h

/-- Turns up to a bound match as often as there are turns left, and fail if that is not
often enough. -/
theorem turns_between {one : Bool → Nat → Option (Option Nat)} (min : Nat) :
    ∀ (left count pos : Nat), (∀ c, count ≤ c → ∀ q, one (c == 0) q = e.run input calls q) →
      (turns true one left count pos).map (enough min) =
        (e.between (min - count) left).run input calls pos
  | 0, count, pos, _ => by
    rw [turns]
    show some (if (count : Int) < min then none else some pos) = _
    cases hmin : min - count with
    | zero =>
      rw [if_neg (by omega)]
      rfl
    | succ m =>
      rw [if_pos (by omega)]
      rfl
  | left + 1, count, pos, hone => by
    have ih (q : Nat) := turns_between min left (count + 1) q
      fun c hc => hone c (by omega)
    -- with the minimum reached a turn that fails ends the turns, before that it fails them
    rw [turns, hone count (Nat.le_refl _)]
    cases hmin : min - count with
    | zero =>
      have hmin' : min - (count + 1) = 0 := by omega
      rw [Peg.between, Peg.run_choice, Peg.run_seq]
      rcases e.run input calls pos with _ | _ | stop
      · rfl
      · show some (if (count : Int) < min then none else some pos) = some (some pos)
        rw [if_neg (by omega)]
      · have hstop := ih stop
        rw [hmin'] at hstop
        show (turns true one left (count + 1) stop).map _ = _
        rw [hstop]
        show (e.between 0 left).run input calls stop =
          ((e.between 0 left).run input calls stop).bind _
        rcases hlast : (e.between 0 left).run input calls stop with _ | _ | last
        · rfl
        · exact absurd hlast between_zero_ne
        · rfl
    | succ m =>
      have hmin' : min - (count + 1) = m := by omega
      rw [Peg.between, Peg.run_seq]
      rcases e.run input calls pos with _ | _ | stop
      · rfl
      · show some (if (count : Int) < min then none else some pos) = some none
        rw [if_pos (by omega)]
      · have hstop := ih stop
        rw [hmin'] at hstop
        exact hstop

theorem turn_nothing {body : Nat → Option (Outcome V)}
    (hbody : ∀ q, (body q).map Outcome.stop? = e.run input calls q) :
    turn nothing body = fun _ => e.run input calls := by
  funext first q
  rw [← hbody]
  unfold turn nothing
  cases first <;> rfl

theorem count_le_turns {bounded : Bool} {one : Bool → Nat → Option (Option Nat)} :
    ∀ {left count pos : Nat} {r : Nat × Nat}, turns bounded one left count pos = some r → count ≤ r.1
  | 0, _, _, _, h => by
    obtain rfl := Option.some.inj h
    exact Nat.le_refl _
  | left + 1, count, pos, r, h => by
    rw [turns] at h
    simp only [Option.bind_eq_bind, Option.bind_eq_some_iff] at h
    obtain ⟨stop, -, h⟩ := h
    cases stop with
    | none =>
      obtain rfl := Option.some.inj h
      exact Nat.le_refl _
    | some stop =>
      dsimp only at h
      split at h
      · obtain rfl := Option.some.inj h
        exact Nat.le_succ _
      · exact Nat.le_of_succ_le (count_le_turns h)

/-- Enough turns are enough for less. -/
theorem enough_of_count {bounded : Bool} {one : Bool → Nat → Option (Option Nat)} {min : Int}
    {left count pos : Nat} (h : min ≤ count) :
    (turns bounded one left count pos).map (enough min) =
      (turns bounded one left count pos).map fun r => some r.2 := by
  rcases hturns : turns bounded one left count pos with _ | r
  · rfl
  · have hcount := count_le_turns hturns
    show some (enough min r) = some (some r.2)
    rw [enough, if_neg (by omega)]

/-- Open repetition from the first turn on. -/
theorem turns_plus (hone : ∀ q stop, e.run input calls q = some stop → StopsFrom input q stop)
    (pos : Nat) :
    (turns false (fun _ => e.run input calls) (input.length - pos + 1) 0 pos).map (enough 1) =
      (Peg.seq e (.star e)).run input calls pos := by
  rw [turns, Peg.run]
  rcases hstop : e.run input calls pos with _ | _ | stop
  · rfl
  · rfl
  · show Option.map _ (if (!false && stop == pos) = true then _ else _) = (Peg.star e).run _ _ stop
    by_cases hne : stop = pos
    · subst hne
      rw [if_pos (by simp), Peg.run, turns, hstop]
      simp [enough]
    · have hrange := hone pos _ hstop stop rfl
      rw [if_neg (by simp [hne]), enough_of_count (by omega), Peg.run]
      exact Peg.turns_enough (fun q _ _ => hone q) (by omega) (Nat.le_refl _)

end

/-! ## A grammar and its parsing expressions -/

section
variable {V : Type} {R : Reading V} {rules : String → Option Peg}

/-- Where the rules stop. -/
def Reading.stops (R : Reading V) (id : String) (pos : Nat) : Option (Option Nat) :=
  (R.call id pos).map Outcome.stop?

/-- Calls of rules are derived. -/
def CallsDerived (rules : String → Option Peg) (R : Reading V) : Prop :=
  ∀ id pos stop, R.stops id pos = some stop → Derives rules R.input (.ref id) pos stop

theorem run_stopsFrom (hR : CallsDerived rules R) (e : Peg) (q : Nat) (stop : Option Nat)
    (h : e.run R.input R.stops q = some stop) : StopsFrom R.input q stop :=
  (Peg.derives_of_run hR e h).stopsFrom

theorem run_atEnd (pos : Nat) : Peg.atEnd.run R.input R.stops pos = some (stopEnd R.input pos) := by
  show some _ = some _
  unfold stopChar stopEnd
  by_cases hpos : R.input.length ≤ pos
  · rw [if_pos hpos, List.getElem?_eq_none hpos]
  · rw [if_neg hpos, List.getElem?_eq_getElem (by omega)]
    rfl

theorem run_and (e : Peg) (pos : Nat) : e.and.run R.input R.stops pos =
    (e.run R.input R.stops pos).map fun stop => if stop.isSome then some pos else none := by
  unfold Peg.and
  rw [Peg.run, Peg.run, Option.map_map]
  congr 1
  funext stop
  cases stop <;> rfl

theorem stop?_repeated_between (min max : Nat) {e : Peg} {body : Nat → Option (Outcome V)}
    (hbody : ∀ q, (body q).map Outcome.stop? = e.run R.input R.stops q) (pos : Nat) :
    (R.repeated min (some max) nothing body pos).map Outcome.stop? =
      (e.between min max).run R.input R.stops pos := by
  unfold Reading.repeated
  rw [stop?_repetition, turn_nothing hbody]
  exact turns_between _ _ _ _ fun _ _ _ => rfl

/-- A separator stands in front of every turn but the first. -/
theorem stop?_repeated_separated {e separator : Peg} {body between : Nat → Option (Outcome V)}
    (hbody : ∀ q, (body q).map Outcome.stop? = e.run R.input R.stops q)
    (hbetween : ∀ q, (between q).map Outcome.stop? = separator.run R.input R.stops q)
    (count pos : Nat) :
    (R.repeated count (some count) (fun q => (between q).map Outcome.stop?) body pos).map
        Outcome.stop? = (e.separated separator count).run R.input R.stops pos := by
  unfold Reading.repeated
  rw [stop?_repetition]
  cases count with
  | zero => rfl
  | succ count =>
    have hfirst : turn (fun q => (between q).map Outcome.stop?) body true pos =
        e.run R.input R.stops pos := hbody pos
    have hlater (c : Nat) (hc : 1 ≤ c) (q : Nat) :
        turn (fun q => (between q).map Outcome.stop?) body (c == 0) q =
          (Peg.seq separator e).run R.input R.stops q := by
      have hzero : (c == 0) = false := by simp; omega
      unfold turn
      dsimp only
      rw [hzero, if_neg Bool.false_ne_true, hbetween, Peg.run_seq]
      rcases separator.run R.input R.stops q with _ | _ | stop
      · rfl
      · rfl
      · exact hbody stop
    have hturns (q : Nat) := turns_between (count + 1) count 1 q hlater
    show (turns true _ (count + 1) 0 pos).map _ = _
    rw [turns, Peg.separated, Peg.run_seq]
    show Option.map _ ((turn _ body true pos).bind _) = _
    rw [hfirst]
    rcases e.run R.input R.stops pos with _ | _ | stop
    · rfl
    · show some (if ((0 : Nat) : Int) < (count + 1 : Nat) then none else some pos) = some none
      rw [if_pos (by omega)]
    · exact hturns stop

/-- An open repetition needs no turn, or one. -/
theorem stop?_repeated_open {e : Peg} {body : Nat → Option (Outcome V)}
    (hR : CallsDerived rules R)
    (hbody : ∀ q, (body q).map Outcome.stop? = e.run R.input R.stops q) {min : Nat}
    (hmin : min ≤ 1) (pos : Nat) :
    (R.repeated min none nothing body pos).map Outcome.stop? =
      (e.atLeast min).run R.input R.stops pos := by
  unfold Reading.repeated
  rw [stop?_repetition, turn_nothing hbody]
  match min, hmin with
  | 0, _ =>
    rw [Peg.atLeast, Peg.run]
    exact enough_of_count (Int.le_refl 0)
  | 1, _ => exact turns_plus (run_stopsFrom hR e) pos

mutual

/-- A choice stops where its parsing expression stops. -/
theorem read_alternatives (hR : CallsDerived rules R) (types : Nat → Resolved.ValueType) :
    ∀ (as : List Alternative) (index pos : Nat), alternativesPlain as = true →
      (readAlternatives R types index as pos).map Outcome.stop? =
        (alternativesPeg as).run R.input R.stops pos
  | [], _, _, _ => by
    rw [readAlternatives, alternativesPeg]
    rfl
  | a :: rest, index, pos, hplain => by
    rw [alternativesPlain, Bool.and_eq_true] at hplain
    have ha := Alternative.read_eq hR (types index) a pos hplain.1
    have hrest := read_alternatives hR types rest (index + 1) pos hplain.2
    rw [readAlternatives, alternativesPeg, Peg.run_choice, ← ha]
    rcases a.read R (types index) pos with _ | _ | _
    · rfl
    · exact hrest
    · rfl

theorem Alternative.read_eq (hR : CallsDerived rules R) (type : Resolved.ValueType) :
    ∀ (a : Alternative) (pos : Nat), a.plain = true →
      (a.read R type pos).map Outcome.stop? = a.peg.run R.input R.stops pos
  | ⟨elements, action⟩, pos, hplain => by
    rw [Alternative.plain] at hplain
    rw [Alternative.read, Alternative.peg, ← read_elements hR {} elements pos hplain]
    rcases readElements R {} elements pos with _ | _ | _ <;> rfl

theorem read_elements (hR : CallsDerived rules R) (row : RowValues V) :
    ∀ (es : List Element) (pos : Nat), elementsPlain es = true →
      (readElements R row es pos).map (Option.map fun r => r.1) =
        (elementsPeg es).run R.input R.stops pos
  | [], _, _ => by
    rw [readElements, elementsPeg]
    rfl
  | e :: rest, pos, hplain => by
    rw [elementsPlain, Bool.and_eq_true] at hplain
    have he := Element.read_eq hR row e pos hplain.1
    rw [readElements, elementsPeg, Peg.run_seq, ← he]
    rcases e.read R row pos with _ | _ | ⟨stop, row'⟩
    · rfl
    · rfl
    · exact read_elements hR row' rest stop hplain.2

theorem Element.read_eq (hR : CallsDerived rules R) (row : RowValues V) :
    ∀ (e : Element) (pos : Nat), e.plain = true →
      (e.read R row pos).map (Option.map fun r => r.1) = e.peg.run R.input R.stops pos
  | .item plucked label body, pos, hplain => by
    rw [Element.plain] at hplain
    rw [Element.read, Element.peg, ← Quantified.read_eq hR body pos hplain]
    rcases body.read R pos with _ | _ | _ <;> rfl
  | .check true (.lookahead body), pos, hplain => by
    rw [Element.plain] at hplain
    rw [Element.read, Element.peg, Peg.run, ← Quantified.read_eq hR body pos hplain]
    rcases body.read R pos with _ | _ | _ <;> rfl
  | .check false (.lookahead body), pos, hplain => by
    rw [Element.plain] at hplain
    rw [Element.read, Element.peg, run_and, ← Quantified.read_eq hR body pos hplain]
    rcases body.read R pos with _ | _ | _ <;> rfl
  | .check _ (.predicate _), _, hplain => by
    rw [Element.plain] at hplain
    cases hplain

theorem Quantified.read_eq (hR : CallsDerived rules R) : ∀ (q : Quantified) (pos : Nat),
    q.plain = true → (q.read R pos).map Outcome.stop? = q.peg.run R.input R.stops pos
  | ⟨expr, .one⟩, pos, hplain => by
    rw [Quantified.plain] at hplain
    rw [Quantified.read, Quantified.peg]
    exact Expr.read_eq hR expr pos hplain
  | ⟨expr, .optional⟩, pos, hplain => by
    rw [Quantified.plain] at hplain
    have hone (q : Nat) : (expr.peg.between 0 1).run R.input R.stops q =
        (Peg.choice expr.peg .empty).run R.input R.stops q := by
      rw [Peg.between, Peg.between, Peg.run_choice, Peg.run_choice, Peg.run_seq]
      rcases expr.peg.run R.input R.stops q with _ | _ | _ <;> rfl
    rw [Quantified.read, Quantified.peg, ← hone]
    exact stop?_repeated_between 0 1 (fun q => Expr.read_eq hR expr q hplain) pos
  | ⟨expr, .zeroOrMore⟩, pos, hplain => by
    rw [Quantified.plain] at hplain
    rw [Quantified.read, Quantified.peg]
    exact stop?_repeated_open hR (fun q => Expr.read_eq hR expr q hplain) (Nat.zero_le 1) pos
  | ⟨expr, .oneOrMore⟩, pos, hplain => by
    rw [Quantified.plain] at hplain
    rw [Quantified.read, Quantified.peg]
    exact stop?_repeated_open hR (fun q => Expr.read_eq hR expr q hplain) (Nat.le_refl 1) pos
  | ⟨expr, .exact count⟩, pos, hplain => by
    rw [Quantified.plain] at hplain
    rw [Quantified.read, Quantified.peg]
    exact stop?_repeated_between _ _ (fun q => Expr.read_eq hR expr q hplain) pos
  | ⟨expr, .range min (some max)⟩, pos, hplain => by
    rw [Quantified.plain] at hplain
    rw [Quantified.read, Quantified.peg]
    exact stop?_repeated_between _ _ (fun q => Expr.read_eq hR expr q hplain) pos
  | ⟨expr, .range min none⟩, pos, hplain => by
    rw [Quantified.plain, Bool.and_eq_true, decide_eq_true_eq] at hplain
    rw [Quantified.read, Quantified.peg]
    exact stop?_repeated_open hR (fun q => Expr.read_eq hR expr q hplain.2) hplain.1 pos
  | ⟨expr, .separated count separator⟩, pos, hplain => by
    rw [Quantified.plain, Bool.and_eq_true] at hplain
    rw [Quantified.read, Quantified.peg]
    exact stop?_repeated_separated (fun q => Expr.read_eq hR expr q hplain.1)
      (fun q => Expr.read_eq hR separator q hplain.2) count.toNat pos
  | ⟨_, .computed _ _⟩, _, hplain => by
    rw [Quantified.plain] at hplain
    cases hplain

theorem Expr.read_eq (hR : CallsDerived rules R) : ∀ (e : Expr) (pos : Nat), e.plain = true →
    (e.read R pos).map Outcome.stop? = e.peg.run R.input R.stops pos
  | .literal value, pos, _ => by
    rw [Expr.read, Expr.peg, Peg.run, Option.map_some, stop?_consumed]
  | .class items, pos, _ => by
    rw [Expr.read, Expr.peg, Peg.run, Option.map_some, stop?_consumed]
  | .ruleRef target, pos, _ => by
    rw [Expr.read, Expr.peg, Peg.run]
    rfl
  | .anyChar, pos, _ => by
    rw [Expr.read, Expr.peg, Peg.run, Option.map_some, stop?_consumed]
  | .endOfInput, pos, _ => by
    rw [Expr.read, Expr.peg, run_atEnd, Option.map_some, stop?_consumed]
  | .group alternatives, pos, hplain => by
    rw [Expr.plain] at hplain
    rw [Expr.read, Expr.peg]
    exact read_alternatives hR _ alternatives 0 pos hplain

end

end

/-- Rules stop where their parsing expressions stop, with calls nested equally deep. -/
theorem call_stops {V : Type} {g : Grammar} (hg : g.Plain) (types : ActionTypes) (H : Host V)
    (input : List Char) : ∀ (depth : Nat) (id : String) (pos : Nat),
    (g.call types H input depth id pos).map Outcome.stop? =
      Peg.call g.closedBodies input depth id pos
  | 0, _, _ => rfl
  | depth + 1, id, pos => by
    -- calls that are nested less deep stop alike
    have hR : CallsDerived g.closedBodies
        (⟨H, input, g.call types H input depth⟩ : Reading V) := fun id pos stop hstop =>
      Peg.derives_of_call depth id pos stop (call_stops hg types H input depth id pos ▸ hstop)
    have hstops : Peg.call g.closedBodies input depth =
        (⟨H, input, g.call types H input depth⟩ : Reading V).stops := by
      funext id pos
      exact (call_stops hg types H input depth id pos).symm
    rw [Grammar.call, Peg.call, hstops]
    unfold closedBodies
    cases hrule : g.rule id with
    | none => rfl
    | some rule =>
      have hplain := hg rule (List.mem_of_find?_eq_some hrule)
      have hread := read_alternatives hR (Resolved.actionResult types id) rule.alternatives 0 pos
        hplain
      show Option.map Outcome.stop? (Option.map _ _) = Peg.run input _ (if _ then _ else _) pos
      unfold Rule.finish
      cases rule.start with
      | false =>
        rw [if_neg Bool.false_ne_true, ← hread, Option.map_map]
        congr 1
        funext outcome
        cases outcome <;> rfl
      | true =>
        -- the function of the start rule asks for the end of the input
        rw [if_pos rfl, Peg.run_seq, ← hread]
        rcases readAlternatives _ _ 0 rule.alternatives pos with _ | _ | ⟨stop, value⟩
        · rfl
        · rfl
        · show some (Outcome.stop? (if true && (stopEnd input stop).isNone then _ else _)) =
            Peg.atEnd.run input _ stop
          rw [run_atEnd (R := ⟨H, input, g.call types H input depth⟩)]
          unfold stopEnd
          by_cases hend : input.length ≤ stop
          · simp [hend, Outcome.stop?]
          · simp [hend, Outcome.stop?]

end Grammar

end PegCompiler
