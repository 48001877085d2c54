import PegCompiler.Proofs.Lowering.Refinement
import PegCompiler.Proofs.Recognition.Reading
/-
  Repetitions with a minimum and no maximum. As a parsing expression, `e{m,}` is `m` times
  `e` and then `e*`. What is made of it leaves its loop behind a turn that consumes
  nothing, be there enough turns or not, and then fails if there are not: although that
  turn could be made again as often as is missing. `stalls` says where this happens. There
  the range fails and the copies match; everywhere else both come to the same
  (`openRange_meaning`).
-/

namespace PegCompiler

namespace Grammar

open Resolved (StopsWithin)
open Semantics (Host Outcome consumed nothing repetition slice turn turnLimit turns)

/-! ## Matches in a row -/

section
variable (input : List Char) (one : Nat → Option (Option Nat))

/-- So many matches in a row. -/
def inRow : (count pos : Nat) → Option (Option Nat)
  | 0, pos => some (some pos)
  | count + 1, pos => do
    match ← one pos with
    | none => some none
    | some stop => inRow count stop

/-- As many matches as there are, up to one that consumes nothing. -/
def star (pos : Nat) : Option (Option Nat) :=
  (turns false (fun _ => one) (input.length - pos + 1) 0 pos).map fun r => some r.2

/-- So many matches in a row, and then as many as there are. -/
def inRowAndStar (count pos : Nat) : Option (Option Nat) := do
  match ← inRow one count pos with
  | none => some none
  | some stop => star input one stop

/-- Whether, of so many matches in a row, one that is not the last consumes nothing. -/
def stalls : (count pos : Nat) → Bool
  | 0, _ => false
  | count + 1, pos => match one pos with
    | some (some stop) => if stop = pos then count != 0 else stalls count stop
    | _ => false

end

section
variable {input : List Char} {one : Nat → Option (Option Nat)}

theorem inRow_succ {count pos stop : Nat} (h : one pos = some (some stop)) :
    inRow one (count + 1) pos = inRow one count stop := by
  rw [inRow, h]
  rfl

/-- A match that consumes nothing is made again and again. -/
theorem inRow_still {pos : Nat} (h : one pos = some (some pos)) :
    ∀ count, inRow one count pos = some (some pos)
  | 0 => rfl
  | count + 1 => (inRow_succ h).trans (inRow_still h count)

theorem star_still {pos : Nat} (h : one pos = some (some pos)) :
    star input one pos = some (some pos) := by
  rw [star, turns, h]
  simp

/-- A star does not fail. -/
theorem star_ne_fail {pos : Nat} : star input one pos ≠ some none := by
  intro h
  obtain ⟨r, -, h⟩ := Option.map_eq_some_iff.mp h
  cases h

/-- Where it stalls, all of the matches stop at the place of the one that consumes
nothing. -/
theorem inRow_of_stalls : ∀ {count pos : Nat}, stalls one count pos = true →
    ∃ stop, one stop = some (some stop) ∧ inRow one count pos = some (some stop)
  | 0, _, h => nomatch h
  | count + 1, pos, h => by
    rw [stalls] at h
    rcases hone : one pos with _ | _ | stop
    · simp [hone] at h
    · simp [hone] at h
    · rw [hone] at h
      by_cases hstop : stop = pos
      · subst hstop
        exact ⟨stop, hone, inRow_still hone _⟩
      · dsimp only at h
        rw [if_neg hstop] at h
        obtain ⟨last, hlast, hrow⟩ := inRow_of_stalls h
        exact ⟨last, hlast, (inRow_succ hone).trans hrow⟩

/-- It stalls behind some of the matches: fewer than all but one. -/
theorem stalls_iff : ∀ {count pos : Nat}, stalls one count pos = true ↔
    ∃ made stop, made + 1 < count ∧ inRow one made pos = some (some stop) ∧
      one stop = some (some stop)
  | 0, _ => ⟨fun h => (nomatch h), fun ⟨_, _, h, _⟩ => absurd h (Nat.not_lt_zero _)⟩
  | count + 1, pos => by
    rw [stalls]
    constructor
    · intro h
      rcases hone : one pos with _ | _ | stop
      · simp [hone] at h
      · simp [hone] at h
      · rw [hone] at h
        dsimp only at h
        by_cases hstop : stop = pos
        · subst hstop
          rw [if_pos rfl, bne_iff_ne] at h
          exact ⟨0, stop, by omega, rfl, hone⟩
        · rw [if_neg hstop] at h
          obtain ⟨made, last, hmade, hrow, hlast⟩ := stalls_iff.mp h
          exact ⟨made + 1, last, by omega, (inRow_succ hone).trans hrow, hlast⟩
    · rintro ⟨made, last, hmade, hrow, hlast⟩
      cases made with
      | zero =>
        obtain rfl : pos = last := Option.some.inj (Option.some.inj hrow)
        rw [hlast]
        dsimp only
        rw [if_pos rfl, bne_iff_ne]
        omega
      | succ made =>
        rw [inRow] at hrow
        rcases hone : one pos with _ | _ | stop
        · simp [hone] at hrow
        · simp [hone] at hrow
        · rw [hone] at hrow
          dsimp only
          by_cases hstop : stop = pos
          · rw [if_pos hstop, bne_iff_ne]
            omega
          · rw [if_neg hstop]
            exact stalls_iff.mpr ⟨made, last, by omega, hrow, hlast⟩

/-- Nothing stalls that has to match once at the most, or that always consumes something. -/
theorem stalls_eq_false {count : Nat} (h : count ≤ 1 ∨ ∀ q, one q ≠ some (some q)) (pos : Nat) :
    stalls one count pos = false := by
  rw [Bool.eq_false_iff]
  intro hstalls
  obtain ⟨made, stop, hmade, -, hstop⟩ := stalls_iff.mp hstalls
  rcases h with h | h
  · omega
  · exact h stop hstop

/-- Turns up to a bound are matches in a row, if they all have to be made. -/
theorem turns_inRow : ∀ (left count pos : Nat),
    (turns true (fun _ => one) left count pos).map (enough (count + left : Nat)) =
      inRow one left pos
  | 0, count, pos => by
    show some (if (count : Int) < (count + 0 : Nat) then none else some pos) = _
    rw [if_neg (by omega)]
    rfl
  | left + 1, count, pos => by
    rw [turns, inRow]
    rcases one pos with _ | _ | stop
    · rfl
    · show some (if (count : Int) < (count + (left + 1) : Nat) then none else some pos) = some none
      rw [if_pos (by omega)]
    · show (turns true _ left (count + 1) stop).map _ = inRow one left stop
      rw [← turns_inRow left (count + 1) stop, Nat.add_right_comm, Nat.add_assoc]

/-- Turns without a bound are matches in a row and a star, unless they stall: then they
end with too few. -/
theorem turns_open (hone : ∀ q ≤ input.length, ∀ stop, one q = some stop →
      StopsWithin input q stop) : ∀ (min left count pos : Nat), pos ≤ input.length →
    input.length - pos + 1 ≤ left →
    (turns false (fun _ => one) left count pos).map (enough (count + min : Nat)) =
      if stalls one min pos then some none else inRowAndStar input one min pos
  | 0, left, count, pos, hpos, hleft => by
    have hstops : ∀ q, pos ≤ q → q ≤ max pos input.length → ∀ stop, one q = some stop →
        Peg.StopsFrom input q stop := by
      intro q _ hq stop hstop r hr
      have := hone q (by omega) stop hstop r hr
      omega
    rw [enough_of_count (by omega)]
    exact Peg.turns_enough hstops hleft (Nat.le_refl _)
  | min + 1, left + 1, count, pos, hpos, hleft => by
    unfold inRowAndStar
    rw [turns, stalls, inRow]
    rcases hstop : one pos with _ | _ | stop
    · rfl
    · show some (if (count : Int) < (count + (min + 1) : Nat) then none else some pos) = some none
      rw [if_pos (by omega)]
    · have hrange := hone pos hpos _ hstop stop rfl
      show Option.map _ (if (!false && stop == pos) = true then _ else _) =
        if (if stop = pos then min != 0 else stalls one min stop) = true then _ else
          inRowAndStar input one min stop
      by_cases hne : stop = pos
      · -- the turn was the last, so the minimum decides
        subst hne
        rw [if_pos (by simp), if_pos rfl]
        show some (if ((count + 1 : Nat) : Int) < (count + (min + 1) : Nat) then _ else _) = _
        cases min with
        | zero =>
          rw [if_neg (by omega), if_neg (by simp)]
          exact (star_still hstop).symm
        | succ min => rw [if_pos (by omega), if_pos (by simp)]
      · have hrest := turns_open hone min left (count + 1) stop hrange.2 (by omega)
        rw [if_neg (by simp [hne]), if_neg hne, ← hrest, Nat.add_right_comm, Nat.add_assoc]

end

/-! ## Elements in a row -/

section
variable {V : Type}

/-- Where an expression stops. -/
def Expr.stops (e : Expr) (R : Reading V) (pos : Nat) : Option (Option Nat) :=
  (e.read R pos).map Outcome.stop?

/-- What a grammar is matched with when calls are nested as deep as `depth`. -/
def reading (g : Grammar) (types : ActionTypes) (H : Host V) (input : List Char) (depth : Nat) :
    Reading V :=
  ⟨H, input, g.call types H input depth⟩

/-- The row of so many copies of an expression and, behind them, of its star. -/
def copies (e : Expr) (count : Nat) : Alternative :=
  ⟨List.replicate count (.item false none ⟨e, .one⟩) ++ [.item false none ⟨e, .zeroOrMore⟩], none⟩

variable {R : Reading V} {e : Expr}

theorem turn_stops : turn nothing (e.read R) = fun _ => e.stops R := by
  funext first q
  unfold turn nothing
  cases first <;> rfl

/-- A repetition of an expression with nothing in between. -/
theorem repeated_eq (min : Int) (max : Option Int) (pos : Nat) :
    R.repeated min max nothing (e.read R) pos =
      ((turns max.isSome (fun _ => e.stops R) (turnLimit R.input pos max) 0 pos).map
        (enough min)).map (consumed R.host R.input pos) := by
  unfold Reading.repeated repetition
  rw [turn_stops]
  rcases turns max.isSome _ _ 0 pos with _ | _ <;> rfl

theorem read_star (pos : Nat) : (⟨e, .zeroOrMore⟩ : Quantified).read R pos =
    (star R.input (e.stops R) pos).map (consumed R.host R.input pos) := by
  rw [Quantified.read, repeated_eq, enough_of_count (Int.le_refl 0)]
  rfl

theorem read_exact (count : UInt32) (pos : Nat) :
    (⟨e, .exact count⟩ : Quantified).read R pos =
      (inRow (e.stops R) count.toNat pos).map (consumed R.host R.input pos) := by
  rw [Quantified.read, repeated_eq, ← turns_inRow _ 0, Nat.zero_add]
  rfl

/-- Behind the copies, the labels and the plucked values of a row are as they were. -/
theorem read_copyElements : ∀ (count : Nat) (row : RowValues V) (pos : Nat),
    (readElements R row (copies e count).elements pos).map
        (Option.map fun r => (r.1, r.2.labels, r.2.plucked)) =
      (inRowAndStar R.input (e.stops R) count pos).map
        (Option.map fun stop => (stop, row.labels, row.plucked))
  | 0, row, pos => by
    show (readElements R row [.item false none ⟨e, .zeroOrMore⟩] pos).map _ =
      (star R.input (e.stops R) pos).map _
    rw [Resolution.readElements_cons, Element.read, read_star]
    rcases star R.input (e.stops R) pos with _ | _ | stop
    · rfl
    · rfl
    · simp [readElements, consumed, RowValues.add]
  | count + 1, row, pos => by
    show (readElements R row (.item false none ⟨e, .one⟩ :: (copies e count).elements) pos).map _ =
      _
    unfold inRowAndStar
    rw [Resolution.readElements_cons, Element.read, Quantified.read, inRow, Expr.stops]
    rcases e.read R pos with _ | _ | ⟨stop, value⟩
    · rfl
    · rfl
    · refine (read_copyElements count _ stop).trans ?_
      simp [RowValues.add, inRowAndStar, Outcome.stop?]

theorem read_copies (type : Resolved.ValueType) (count pos : Nat) :
    (copies e count).read R type pos =
      (inRowAndStar R.input (e.stops R) count pos).map (consumed R.host R.input pos) := by
  have hrow := read_copyElements (R := R) (e := e) count {} pos
  show (Alternative.mk (copies e count).elements none).read R type pos = _
  rw [Alternative.read]
  generalize readElements R {} (copies e count).elements pos = x at hrow
  generalize inRowAndStar R.input (e.stops R) count pos = y at hrow ⊢
  rcases x with _ | _ | ⟨stop, row⟩ <;> rcases y with _ | _ | stop' <;> simp at hrow
  · rfl
  · rfl
  · obtain ⟨rfl, hlabels, hplucked⟩ := hrow
    show some (Outcome.matched _ (row.result R.host R.input type pos _ none)) = _
    unfold RowValues.result
    rw [hlabels, hplucked]
    rfl

/-- An open range matches as its copies do, unless it stalls. -/
theorem read_openRange (hwithin : ∀ q ≤ R.input.length, ∀ stop, e.stops R q = some stop →
      StopsWithin R.input q stop) (min : UInt32) (type : Resolved.ValueType) {pos : Nat}
    (hpos : pos ≤ R.input.length) : (⟨e, .range (some min) none⟩ : Quantified).read R pos =
      if stalls (e.stops R) min.toNat pos then some .failed
      else (copies e min.toNat).read R type pos := by
  have hturns := turns_open hwithin min.toNat _ 0 pos hpos (Nat.le_refl _)
  rw [Nat.zero_add] at hturns
  rw [Quantified.read, repeated_eq, read_copies]
  show ((turns false _ (R.input.length - pos + 1) 0 pos).map (enough min.toNat)).map _ = _
  rw [hturns]
  split <;> rfl

/-- Where an open range stalls, its copies and exactly as many matches as its minimum
stop at one place. -/
theorem copies_of_stalls {min : UInt32} {pos : Nat} (type : Resolved.ValueType)
    (h : stalls (e.stops R) min.toNat pos = true) : ∃ stop value,
    (copies e min.toNat).read R type pos = some (.matched stop value) ∧
      (⟨e, .exact min⟩ : Quantified).read R pos = some (.matched stop value) := by
  obtain ⟨stop, hstop, hrow⟩ := inRow_of_stalls h
  refine ⟨stop, R.host.ofText (slice R.input pos stop), ?_, ?_⟩
  · rw [read_copies]
    unfold inRowAndStar
    rw [hrow]
    show (star R.input (e.stops R) stop).map _ = _
    rw [star_still hstop]
    rfl
  · rw [read_exact, hrow]
    rfl

/-- Copies do not fail where there are as many matches as the minimum. -/
theorem copies_of_exact {min : UInt32} {pos stop : Nat} {value : V} (type : Resolved.ValueType)
    (h : (⟨e, .exact min⟩ : Quantified).read R pos = some (.matched stop value)) :
    (copies e min.toNat).read R type pos ≠ some .failed := by
  rw [read_exact] at h
  rw [read_copies]
  unfold inRowAndStar
  rcases hrow : inRow (e.stops R) min.toNat pos with _ | _ | last
  · simp [hrow] at h
  · simp [hrow, consumed] at h
  · show (star R.input (e.stops R) last).map _ ≠ _
    rcases hstar : star R.input (e.stops R) last with _ | _ | _
    · simp
    · exact absurd hstar star_ne_fail
    · simp [consumed]

end

end Grammar

namespace Lowering

open Grammar (Reading copies stalls)
open Resolution (Context Emitted Env Final Same reading resolveExpr resolveQuantified)
open Resolved (Captured Matcher Parser resultVar)
open Semantics (Host Outcome)
open Target (Machine Returns Runtime Stmt runStmts)

/-! ## Generated code -/

section
variable {V : Type}

/-- What a generated piece of code does depends on where its matcher stops, and on
nothing else of the outcome. -/
theorem Simulates.of_same {T : Machine V} {full : Scope} {env : Captured V} {n : Nat}
    {fail stmts : List Stmt} {outcome outcome' : Nat → Option (Outcome V)} (keeps : Bool)
    (h : Simulates T full env n fail stmts outcome)
    (hsame : ∀ pos ≤ T.input.length, Same keeps (outcome pos) (outcome' pos)) :
    Simulates T full env n fail stmts outcome' := by
  intro s pos sig back hfits hcursor hpos hesc
  have hends := h hfits hcursor hpos hesc
  have hstop := hsame pos hpos
  generalize outcome pos = x at hends hstop
  generalize outcome' pos = y at hstop
  generalize runStmts T stmts s = r at hends
  cases hstop with
  | unknown =>
    cases hends with
    | unknown => exact .unknown
  | failed =>
    cases hends with
    | failed after cursor => exact .failed after cursor
  | matched _ =>
    cases hends with
    | matched after cursor _ => exact .matched after cursor trivial

/-- An open range resolves to a repetition of what its expression resolves to. -/
theorem yields_openRange {env : Env} {ctx : Context} {e : Grammar.Expr} {min : UInt32}
    {matcher : Matcher} {out out' : Emitted}
    (h : Yields (resolveQuantified env ctx ⟨e, .range (some min) none⟩) out matcher out') :
    ∃ body mid, Yields (resolveExpr env ctx e) out body mid ∧ Resolution.Grows mid out' ∧
      matcher = .repeat body (.count min.toNat) none none := by
  rw [resolveQuantified] at h
  simp only [Yields.bind_iff] at h
  obtain ⟨body, mid, hbody, h⟩ := h
  rw [Resolution.resolveQuantifier] at h
  simp only [Yields.bind_iff] at h
  obtain ⟨_, _, hbounds, h⟩ := h
  obtain ⟨-, rfl, rfl⟩ := Resolution.yields_rangeBounds hbounds
  obtain ⟨rfl, rfl⟩ := Resolution.yields_repeated h
  exact ⟨body, mid, hbody, .addNote _ _, rfl⟩

end

/-- **An open range is its copies and a star, unless it stalls.** What is generated for
`e{m,}`, wherever it stands in a grammar that resolution accepts, stops where `m` times `e`
and then `e*` stop, and fails where they fail; but where one of the first `m - 1` matches
consumes nothing it fails, and they match, as does `e{m}`. Nowhere else does it fail where
`e{m}` matches. -/
theorem openRange_meaning {g : Grammar} {types : ActionTypes} {p : Parser}
    (h : Resolution.resolve g types = .ok p) {ctx : Context} {e : Grammar.Expr} {min : UInt32}
    {matcher : Matcher} {out out' : Emitted}
    (hmatcher : Yields (resolveQuantified (.ofRules g.rules types) ctx
      ⟨e, .range (some min) none⟩) out matcher out') (hfinal : Final p out')
    {fail stmts : List Stmt} {sc sc' full : Scope}
    (hstmts : Yields (lowerMatcher fail matcher) sc stmts sc') (hnamed : Named sc)
    (hfull : sc'.names ⊆ full.names) (hres : resultVar ∈ full.names) :
    ∃ fs, p.rules.mapM lowerRule = .ok fs ∧
      ∀ {V : Type} (H : Host V) (R : Runtime) (input : List Char), R.Faithful input →
        ∀ (depth : Nat) (env : Captured V),
          Simulates (machine p fs H R input depth) full env sc.counter fail stmts (fun pos =>
            if stalls (e.stops (g.reading types H input depth)) min.toNat pos then some .failed
            else (copies e min.toNat).read (g.reading types H input depth) .text pos) ∧
          ∀ pos,
            ((min.toNat ≤ 1 ∨ ∀ q, e.stops (g.reading types H input depth) q ≠ some (some q)) →
              stalls (e.stops (g.reading types H input depth)) min.toNat pos = false) ∧
            (stalls (e.stops (g.reading types H input depth)) min.toNat pos = true →
              ∃ stop value,
                (copies e min.toNat).read (g.reading types H input depth) .text pos =
                  some (.matched stop value) ∧
                (⟨e, .exact min⟩ : Grammar.Quantified).read (g.reading types H input depth) pos =
                  some (.matched stop value)) ∧
            ∀ stop value,
              (⟨e, .exact min⟩ : Grammar.Quantified).read (g.reading types H input depth) pos =
                some (.matched stop value) →
              (copies e min.toNat).read (g.reading types H input depth) .text pos ≠
                some .failed := by
  have hp := Resolution.typed_of_resolve h
  obtain ⟨fs, hok, hfs⟩ := rules_ok hp
  refine ⟨fs, hok, fun {V} H R input hR depth env => ?_⟩
  refine ⟨?_, fun pos => ⟨fun hnever => Grammar.stalls_eq_false hnever pos,
    Grammar.copies_of_stalls _, fun _ _ => Grammar.copies_of_exact _⟩⟩
  have hl := linked hp hfs hR H depth
  let M := source p (machine p fs H R input depth) (p.call H input depth)
  have hreading : reading M = g.reading types H input depth := by
    show (⟨H, input, p.call H input depth⟩ : Reading V) = _
    rw [Resolution.call_eq h]
    rfl
  have hagrees := Resolution.agrees h
  have hclosed := Resolution.meaning_closed (M := M) hagrees rfl
  obtain ⟨body, mid, hbody, hgrows, rfl⟩ := yields_openRange hmatcher
  -- the expression stays within the input, as what it resolves to does
  have hwithin : ∀ q ≤ input.length, ∀ stop,
      e.stops (g.reading types H input depth) q = some stop →
      Resolved.StopsWithin input q stop := by
    intro q hq stop hstop
    have hsame := (hclosed.expr e hbody).2 (hfinal.of_grows hgrows) env q
    have hrange := body.within (M := M) hl.within env hq
    refine hrange.stop (hsame.stop.trans ?_)
    rw [hreading]
    exact hstop
  have htyped := ((Resolution.typing_closed hagrees).quantified _ hmatcher).2.1 hfinal []
  have hsim := simulates_matcher hp hl hres _ htyped (Covers.nil : Covers [] env) hstmts
    hnamed hfull
  refine hsim.of_same ctx.capturing fun pos hpos => ?_
  have hsame := (hclosed.quantified _ hmatcher).2 hfinal env pos
  rw [hreading, Grammar.read_openRange hwithin min .text hpos] at hsame
  exact hsame

/-- An open range with a minimum of two over a match that consumes nothing, and its
copies. -/
def nothingTwice : Grammar where
  rules := [
    ⟨"s", true, [⟨[.item false none ⟨.literal "", .range (some 2) none⟩], none⟩]⟩,
    ⟨"copied", false, [copies (.literal "") 2]⟩]

def nothingTwiceParser : Parser where
  rules := [
    ⟨"s", "peg_s", true, .text,
      ⟨[⟨[⟨.repeat (.literal "") (.count 2) none none, none⟩], .consumed, .text⟩], some resultVar⟩⟩,
    ⟨"copied", "peg_copied", false, .text,
      ⟨[⟨[⟨.literal "", none⟩, ⟨.literal "", none⟩,
        ⟨.repeat (.literal "") (.count 0) none none, none⟩], .consumed, .text⟩], some resultVar⟩⟩]
  actions := []

theorem nothingTwice_rejected :
    Resolution.resolve nothingTwice {} = .ok nothingTwiceParser ∧
    ∃ fs, nothingTwiceParser.rules.mapM lowerRule = .ok fs ∧
      (∃ stmts sc s', Yields (lowerMatcher [.return]
          (.repeat (.literal "") (.count 2) none none)) {} stmts sc ∧ s'.cursor = 1 ∧
        runStmts (machine nothingTwiceParser fs Resolution.texts documented [] 1) stmts
          ⟨1, [], fun _ => some none⟩ = some (.return, s')) ∧
      (∃ value, Returns (functions nothingTwiceParser fs) Resolution.texts documented [] "peg_s" 1
        ⟨false, 1, value⟩) ∧
      Returns (functions nothingTwiceParser fs) Resolution.texts documented [] "peg_copied" 1
        ⟨true, 1, some []⟩ := by
  have h : Resolution.resolve nothingTwice {} = .ok nothingTwiceParser := by cbv
  let ctx : Context := { rule := "s", base := ⟨"s", none⟩, start := true }
  obtain ⟨out, hmatcher, hfinal⟩ : ∃ out, Yields (resolveQuantified (.ofRules nothingTwice.rules {})
      ctx ⟨.literal "", .range (some 2) none⟩) {} (.repeat (.literal "") (.count 2) none none) out ∧
      Final nothingTwiceParser out := by
    refine ⟨Emitted.addNote {} (.repetition (.count 2) none "s"), ?_, ⟨List.nil_prefix, rfl⟩⟩
    rw [resolveQuantified, resolveExpr, pure_bind, Resolution.resolveQuantifier]
    rfl
  obtain ⟨stmts, sc, hstmts⟩ : ∃ stmts sc, Yields (lowerMatcher [.return]
      (.repeat (.literal "") (.count 2) none none)) {} stmts sc := ⟨_, _, rfl⟩
  obtain ⟨fs, hok, hmeaning⟩ := openRange_meaning h hmatcher hfinal hstmts
    (fun _ hv => absurd hv List.not_mem_nil) (names_withResult sc) (result_mem sc)
  have hp := Resolution.typed_of_resolve h
  obtain ⟨fs', hok', hfs⟩ := rules_ok hp
  obtain rfl : fs = fs' := Except.ok.inj (hok.symm.trans hok')
  have hrefines := refines hp hfs Resolution.texts (faithful_documented [])
  refine ⟨h, fs, hok, ⟨stmts, sc, ?_⟩, ?_, ?_⟩
  · have hsim := (hmeaning Resolution.texts documented [] (faithful_documented _) 1 []).1
    have hends := @hsim ⟨1, [], fun _ => some none⟩ 0 .return none
      ⟨fun _ _ => rfl, fun _ hf => absurd hf List.not_mem_nil,
        fun _ _ hv => absurd hv.symm (Option.some_ne_none _)⟩ rfl (Nat.le_refl _)
      (.of_signal (fun _ => by rw [Stmt.run]) .return)
    dsimp only at hends
    rw [if_pos (by cbv)] at hends
    generalize runStmts _ stmts _ = y at hends ⊢
    cases hends with
    | failed _ cursor => exact ⟨_, hstmts, cursor, rfl⟩
  · exact (hrefines.rejects _ (List.mem_cons_self ..) 0 (Nat.zero_le _) 1).mpr ⟨rfl, 1, by cbv⟩
  · exact (hrefines.accepts _ (List.mem_cons_of_mem _ (List.mem_cons_self ..)) 0 (Nat.zero_le _) 1
      _).mpr ⟨0, _, rfl, rfl, 1, by cbv⟩

end Lowering

end PegCompiler
