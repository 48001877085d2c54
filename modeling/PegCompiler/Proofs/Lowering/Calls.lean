import PegCompiler.Proofs.Lowering.Expressions
import PegCompiler.Proofs.Lowering.Scopes
/-
  Calls in generated code, and the value of a row. A call of a rule's function moves the
  cursor and sets its argument as the rule does; code gets the captured values for its
  arguments; and the expression for the value of a row comes to that value.
-/

namespace PegCompiler.Lowering

open Naming (word)
open Resolved (ActionCall AltResult Capture Captured Parser RuleCall ValueType)
open Semantics (Outcome slice)
open Target (Datum Expr Frame Machine Signal State Stmt readBlocks runStmts writeBlocks)

section
variable {V : Type} {p : Parser} {T : Machine V} {calls : String → Nat → Option (Outcome V)}

/-! ## Calls of rules -/

/-- What a call of a rule comes to where the rule has to match: its argument and the
cursor are set by `set`. -/
inductive CallEnds (T : Machine V) (fail : List Stmt) (set : Int → Option V → State V) (pos : Nat) :
    Option (Outcome V) → Option (Signal × State V) → Prop
  | unknown : CallEnds T fail set pos none none
  | failed (value : Option V) :
      CallEnds T fail set pos (some .failed) (runStmts T fail (set (pos + 1) value))
  | matched (stop : Nat) (v : V) :
      CallEnds T fail set pos (some (.matched stop v)) (some (.next, set (stop + 1) (some v)))

theorem run_callRule (hl : Linked p T calls) {call : RuleCall} (hcall : call.Typed p)
    (fail : List Stmt) (into : String) (set : Int → Option V → State V) {s : State V} {pos : Nat}
    (hcursor : s.cursor = pos + 1) (hpos : pos ≤ T.input.length)
    (hwrite : ∀ c value, (withCursor s c).write into (value.map .value) = some (set c value)) :
    CallEnds T fail set pos (calls call.rule pos)
      ((failUnless (.call call.function [.var into]) fail).run T s) := by
  obtain ⟨r, hid, hfunction, -⟩ := hcall
  have hrule : r.id = call.rule := by simpa using hid.holds
  have hname : r.function = call.function := by simpa using hfunction.holds
  obtain ⟨f, body, hfind, hbody⟩ := hl.rule r hid.mem
  have hanswers := hl.answers r hid.mem pos hpos
  rw [hname] at hfind hanswers
  rw [hrule] at hanswers
  have heval : (Expr.call call.function [.var into]).eval T s =
      T.callRule call.function [.var into] s := by
    rw [Expr.eval, hfind]
    dsimp only
    rw [hbody]
  have hreturn : T.callRule call.function [.var into] s = (T.call call.function (pos + 1)).bind
      fun r => some (.logical r.accepted, set r.cursor r.value) := by
    unfold Machine.callRule
    dsimp only
    rw [hcursor]
    congr 1
    funext r
    show ((withCursor s r.cursor).write into (r.value.map .value)).bind _ = _
    rw [hwrite]
    rfl
  rw [hreturn] at heval
  generalize T.call call.function (pos + 1) = y at hanswers heval
  generalize calls call.rule pos = x at hanswers
  cases hanswers with
  | unknown =>
    rw [run_failUnless_none heval]
    exact .unknown
  | failed value =>
    rw [run_failUnless (test_of_eval heval rfl)]
    exact .failed value
  | matched stop v =>
    rw [run_failUnless (test_of_eval heval rfl)]
    exact .matched stop v

/-! ## Captures -/

/-- The innermost block declares a variable. -/
def Ready (blocks : List (Frame V)) (var : String) : Prop :=
  ∃ f rest, blocks = f :: rest ∧ (f var).isSome

/-- The state with a variable of the innermost block set. -/
def withCapture (s : State V) (var : String) (d : Option (Datum V)) : State V :=
  match s.blocks with
  | [] => s
  | f :: rest => { s with blocks := f.set var d :: rest }

@[simp] theorem withCapture_cursor (s : State V) (var : String) (d : Option (Datum V)) :
    (withCapture s var d).cursor = s.cursor := by
  unfold withCapture
  split <;> rfl

@[simp] theorem withCapture_locals (s : State V) (var : String) (d : Option (Datum V)) :
    (withCapture s var d).locals = s.locals := by
  unfold withCapture
  split <;> rfl

theorem withCapture_tail (s : State V) (var : String) (d : Option (Datum V)) :
    (withCapture s var d).blocks.tail = s.blocks.tail := by
  unfold withCapture
  split
  next => rfl
  next h => rw [h]; rfl

theorem ne_cursor_of_word {var : String} (h : word var = "capture".toList) : var ≠ cursorVar :=
  fun he => by
    rw [he] at h
    exact absurd h (by decide)

theorem write_capture {s : State V} {var : String} (hword : word var = "capture".toList)
    (hready : Ready s.blocks var) (d : Option (Datum V)) :
    s.write var d = some (withCapture s var d) := by
  obtain ⟨f, rest, hblocks, hf⟩ := hready
  unfold State.write withCapture
  rw [if_neg (ne_cursor_of_word hword), hblocks, writeBlocks, if_pos hf]

theorem Ready.withCapture {s : State V} {var other : String} {d : Option (Datum V)}
    (h : Ready s.blocks other) : Ready (withCapture s var d).blocks other := by
  obtain ⟨f, rest, hblocks, hf⟩ := h
  refine ⟨f.set var d, rest, by rw [Lowering.withCapture, hblocks], ?_⟩
  unfold Frame.set
  split
  · rfl
  · exact hf

theorem OnlyCaptures.withCapture {s : State V} {var : String} {d : Option (Datum V)}
    (h : OnlyCaptures s.blocks) (hword : word var = "capture".toList) :
    OnlyCaptures (withCapture s var d).blocks := by
  unfold Lowering.withCapture
  split
  next => exact h
  next f rest hblocks =>
    intro g hg name hname
    rcases List.mem_cons.mp hg with rfl | hg
    · unfold Frame.set at hname
      split at hname
      next he => exact he ▸ hword
      next => exact h f (hblocks ▸ List.mem_cons_self ..) name hname
    · exact h g (hblocks ▸ List.mem_cons_of_mem _ hg) name hname

/-- A captured value is there afterwards. -/
theorem Fits.withCapture {full : Scope} {env : Captured V} {s : State V} (h : Fits full env s)
    {var : String} (hword : word var = "capture".toList) (hready : Ready s.blocks var) (v : V) :
    Fits full ((var, v) :: env) (withCapture s var (some (.value v))) := by
  obtain ⟨f, rest, hblocks, hf⟩ := hready
  have hset : (Lowering.withCapture s var (some (.value v))).blocks =
      f.set var (some (.value v)) :: rest := by
    rw [Lowering.withCapture, hblocks]
  refine ⟨by rw [withCapture_locals]; exact h.locals, h.blocks.withCapture hword, ?_⟩
  · intro other w hother
    rw [hset, readBlocks]
    by_cases he : other = var
    · subst he
      rw [List.lookup_cons_self] at hother
      obtain rfl := Option.some.inj hother
      refine ⟨hword, ?_⟩
      rw [Frame.set, if_pos rfl]
    · rw [List.lookup_cons, beq_false_of_ne he] at hother
      obtain ⟨hword', hread⟩ := h.captures other w hother
      refine ⟨hword', ?_⟩
      rw [hblocks, readBlocks] at hread
      rw [Frame.set, if_neg he]
      exact hread

/-! ## Calls of code -/

/-- All of some captures have a value. -/
def Covers (captures : List Capture) (env : Captured V) : Prop :=
  ∀ c ∈ captures, ∃ v, env.lookup c.var = some v

theorem Covers.holds {captures : List Capture} {env : Captured V} (h : Covers captures env)
    {var : String} {type : ValueType} (hvar : Resolved.Holds captures var type) :
    ∃ v, env.lookup var = some v := by
  obtain ⟨c, hc, rfl, -⟩ := hvar
  exact h c hc

/-- Several captures have values. -/
theorem Covers.values {captures : List Capture} {env : Captured V} (h : Covers captures env)
    {vars : List String} (hvars : ∀ var ∈ vars, ∃ type, Resolved.Holds captures var type) :
    ∃ vs, List.Forall₂ (fun var v => env.lookup var = some v) vars vs := by
  apply exists_forall₂
  intro var hvar
  obtain ⟨type, hholds⟩ := hvars var hvar
  exact h.holds hholds

/-- The arguments of a well-typed call have values. -/
theorem Covers.args {captures : List Capture} {env : Captured V} (h : Covers captures env)
    {args : List String} {params : List Resolved.Param}
    (hargs : List.Forall₂ (fun arg param => Resolved.Holds captures arg param.type) args params) :
    ∃ vs, List.Forall₂ (fun arg v => env.lookup arg = some v) args vs := by
  apply h.values
  intro arg harg
  obtain ⟨param, -, hholds⟩ := exists_right hargs harg
  exact ⟨param.type, hholds⟩

theorem evalList_vars {s : State V} {args : List String} {vs : List V}
    (h : List.Forall₂ (fun arg v => s.read arg = some (.value v)) args vs) :
    Target.evalList T (args.map .var) s = some (vs.map .value, s) := by
  induction h with
  | nil => rfl
  | cons h _ ih =>
    rw [List.map_cons, Target.evalList, eval_var h]
    show (Target.evalList T _ s).bind _ = _
    rw [ih]
    rfl

theorem resultType_lowerAction (f : Resolved.Action) :
    (lowerAction f).resultType = f.resultType.spec := by
  simp [lowerAction, Target.Function.resultType]

/-- A well-typed call of extracted code comes to the same value as in the parser. -/
theorem eval_actionCall (hl : Linked p T calls) {kind : Resolved.ActionKind}
    {captures : List Capture} {type : ValueType} {call : ActionCall} {full : Scope}
    {env : Captured V} {s : State V} (h : call.Typed p kind captures type)
    (hcovers : Covers captures env) (hfits : Fits full env s) :
    ∃ v, call.value (source p T calls) env = some v ∧
      (actionCall call).eval T s = some (.value v, s) := by
  obtain ⟨f, hf, -, -, hargs⟩ := h
  obtain ⟨name, args⟩ := call
  obtain ⟨vs, hvs⟩ := hcovers.args hargs
  obtain rfl : f.function = name := by simpa using hf.holds
  refine ⟨_, Resolved.value_of_call hf hvs hargs.length_eq.symm, ?_⟩
  have hread := evalList_vars (T := T) (hvs.imp fun _ _ hv => hfits.read_capture hv)
  unfold actionCall
  rw [Expr.eval, hl.action f hf.mem]
  show (Target.evalList T (args.map .var) s).bind _ = _
  rw [hread]
  show (T.callCode (lowerAction f) f.code (vs.map .value)).bind _ = _
  have hcode : T.callCode (lowerAction f) f.code (vs.map .value) =
      some (.value (T.host.run f.resultType.spec f.code
        ((f.params.map (fun q => q.name)).zip vs))) := by
    have hlength : vs.length = (lowerAction f).args.length := by
      rw [← hvs.length_eq, hargs.length_eq]
      exact (List.length_map _).symm
    unfold Machine.callCode
    rw [mapM_values]
    show (if vs.length = (lowerAction f).args.length then _ else _) = _
    rw [if_pos hlength, resultType_lowerAction]
    rfl
  rw [hcode]
  rfl

/-! ## The value of a row -/

theorem eval_consumed {full : Scope} {env : Captured V} {s : State V} {save : String}
    {start stop : Nat} (hfits : Fits full env s) (hplain : Plain save)
    (hsave : s.locals save = some (some (.int (start + 1)))) (hcursor : s.cursor = stop + 1)
    (hstart : start ≤ stop) (hstop : stop ≤ T.input.length) :
    (consumedSince save).eval T s = some (.value (T.host.ofText (slice T.input start stop)), s) := by
  have hlo := eval_var (T := T) (read_local hplain hfits.blocks hsave)
  have hhi : (Expr.bin .sub cursor (.int 1)).eval T s = some (.int stop, s) := by
    refine eval_bin (eval_cursor s) (eval_int 1 s) ?_
    show some (Datum.int (s.cursor - 1)) = _
    rw [hcursor]
    simp
  have htext : Target.substring T.input (start + 1) stop = some (slice T.input start stop) := by
    unfold Target.substring slice
    by_cases h : start = stop
    · subst h
      rw [if_pos (by omega), List.drop_take]
      simp
    · rw [if_neg (by omega), if_pos (by omega)]
      simp
  unfold consumedSince
  rw [Expr.eval, hlo, Option.bind_eq_bind, Option.bind_some]
  dsimp only
  rw [hhi, Option.bind_eq_bind, Option.bind_some]
  show (Target.substring T.input (start + 1) stop).bind _ = _
  rw [htext]
  rfl

/-- Texts put together in front of further variables. -/
theorem eval_concat {s : State V} : ∀ {vars : List String} {vs : List V} {e : Expr}
    {text : List Char}, List.Forall₂ (fun var v => s.read var = some (.value v)) vars vs →
    e.eval T s = some (.value (T.host.ofText text), s) →
    (vars.foldl (fun lhs var => .bin .concat lhs (.var var)) e).eval T s =
      some (.value (T.host.ofText (text ++ vs.flatMap T.host.toText)), s)
  | _, _, _, text, .nil, he => by
    rw [List.foldl_nil, he]
    simp
  | _, _, e, text, .cons (a := var) (b := v) h hrest, he => by
    have hbin : (Expr.bin .concat e (.var var)).eval T s =
        some (.value (T.host.ofText (text ++ T.host.toText v)), s) := by
      refine eval_bin he (eval_var h) ?_
      show some (Datum.value (T.host.ofText (T.host.toText (T.host.ofText text) ++ _))) = _
      rw [T.host.toText_ofText]
    rw [List.foldl_cons, eval_concat hrest hbin, List.flatMap_cons, List.append_assoc]

/-- The expression for the value of a well-typed row comes to that value. -/
theorem eval_result (hl : Linked p T calls) {captures : List Capture} {type : ValueType}
    {result : AltResult} {full : Scope} {env : Captured V} {s : State V} {save : String}
    {start stop : Nat} (h : result.Typed p captures type) (hcovers : Covers captures env)
    (hfits : Fits full env s) (hplain : Plain save)
    (hsave : s.locals save = some (some (.int (start + 1)))) (hcursor : s.cursor = stop + 1)
    (hstart : start ≤ stop) (hstop : stop ≤ T.input.length) :
    ∃ v, result.value (source p T calls) env start stop = some v ∧
      (resultExpr save result).eval T s = some (.value v, s) := by
  cases result with
  | consumed => exact ⟨_, rfl, eval_consumed hfits hplain hsave hcursor hstart hstop⟩
  | capture var =>
    obtain ⟨v, hv⟩ := hcovers.holds h
    exact ⟨v, hv, eval_var (hfits.read_capture hv)⟩
  | action call => exact eval_actionCall hl h hcovers hfits
  | concat vars =>
    obtain ⟨-, htwo, hvars⟩ := h
    obtain ⟨vs, hvs⟩ := hcovers.values fun var hvar => ⟨_, hvars var hvar⟩
    have hread := hvs.imp fun _ _ hv => hfits.read_capture hv
    refine ⟨T.host.ofText (vs.flatMap T.host.toText), ?_, ?_⟩
    · unfold AltResult.value
      dsimp only
      rw [mapM_eq_some hvs]
      rfl
    · match vars, vs, hread with
      | a :: b :: vars, v :: w :: vs, .cons ha (.cons hb hrest) =>
        have hfirst : (Expr.bin .concat (.var a) (.var b)).eval T s =
            some (.value (T.host.ofText (T.host.toText v ++ T.host.toText w)), s) :=
          eval_bin (eval_var ha) (eval_var hb) rfl
        have hconcat := eval_concat hrest hfirst
        rw [List.append_assoc] at hconcat
        exact hconcat

end

end PegCompiler.Lowering
