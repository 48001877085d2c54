import PegCompiler.Proofs.Naming.Identifiers
import PegCompiler.Proofs.Resolved.Typed
import PegCompiler.Proofs.Semantics.Bindings
/-
  The captures of a parser, as they should stand in generated code: a block for every
  row that captures anything, around the references to captures in that row. In a
  well-typed parser every reference is to a capture of its own row (`InBlock`).
-/

namespace PegCompiler.Resolved

open Target (Binding DistinctNames allDistinct allOwn blockOf uses)

/-- The variables of a row's value. -/
def AltResult.variables : AltResult → List String
  | .consumed => []
  | .capture var => [var]
  | .concat vars => vars
  | .action call => call.args

mutual

/-- The references to captures in a matcher, and the blocks of its rows. -/
def Matcher.bindings : Matcher → List Binding
  | .choice c => c.bindings
  | .repeat body _ _ separator => separatorBindings separator ++ body.bindings
  | .lookahead _ body => body.bindings
  | .predicate _ call => uses call.args
  | .literal _ | .class _ | .anyChar | .endOfInput | .call _ => []

/-- Those in a separator, if there is one. -/
def separatorBindings : Option Matcher → List Binding
  | none => []
  | some m => m.bindings

/-- Those in a choice, whose rows have a value if the choice does. -/
def Choice.bindings : Choice → List Binding
  | ⟨alternatives, result⟩ => alternativesBindings result.isSome alternatives

/-- Those in alternatives. -/
def alternativesBindings (valued : Bool) : List Alternative → List Binding
  | [] => []
  | a :: rest => a.bindings valued ++ alternativesBindings valued rest

/-- Those in a row, in a block of its captures. -/
def Alternative.bindings (valued : Bool) : Alternative → List Binding
  | ⟨elements, result, type⟩ =>
    blockOf ((Alternative.captures ⟨elements, result, type⟩).map (fun c => c.var))
      (elementsBindings elements ++ uses (if valued then result.variables else []))

/-- Those in elements, each in front of its own capture. -/
def elementsBindings : List Element → List Binding
  | [] => []
  | ⟨matcher, capture⟩ :: rest =>
    matcher.bindings ++ uses (capture.toList.map (fun c => c.var)) ++ elementsBindings rest

end

theorem elementsBindings_cons (e : Element) (rest : List Element) :
    elementsBindings (e :: rest) = e.matcher.bindings ++ uses (e.capture.toList.map fun c => c.var) ++
      elementsBindings rest := by
  obtain ⟨m, capture⟩ := e
  rw [elementsBindings]

/-- References are to names of the innermost block around, which declares `names`; and no
block declares a name twice. -/
structure InBlock (names : List String) (bs : List Binding) : Prop where
  own : allOwn names bs
  distinct : allDistinct bs

namespace InBlock

variable {names : List String} {a b : List Binding}

theorem nil : InBlock names [] := ⟨trivial, trivial⟩

theorem append (ha : InBlock names a) (hb : InBlock names b) : InBlock names (a ++ b) :=
  ⟨Target.allOwn_append.mpr ⟨ha.own, hb.own⟩, Target.allDistinct_append.mpr ⟨ha.distinct, hb.distinct⟩⟩

theorem uses {used : List String} (h : ∀ name ∈ used, name ∈ names) : InBlock names (uses used) :=
  ⟨Target.allOwn_uses.mpr h, Target.allDistinct_uses used⟩

theorem blockOf {inner : List String} (hdistinct : DistinctNames inner) (h : InBlock inner a) :
    InBlock names (blockOf inner a) := by
  unfold Target.blockOf
  split
  next hempty =>
    have hnil : inner ⊆ names := by simp [List.isEmpty_iff.mp hempty]
    exact ⟨Target.allOwn_mono hnil h.own, h.distinct⟩
  next => exact ⟨⟨h.own, trivial⟩, ⟨hdistinct, h.distinct⟩, trivial⟩

end InBlock

theorem Holds.mem {captures : List Capture} {var : String} {type : ValueType}
    (h : Holds captures var type) : var ∈ captures.map (fun c => c.var) := by
  obtain ⟨c, hc, rfl, -⟩ := h
  exact List.mem_map_of_mem hc

section
variable {p : Parser}

theorem ActionCall.args_mem {kind : ActionKind} {captures : List Capture} {type : ValueType}
    {call : ActionCall} (h : call.Typed p kind captures type) :
    ∀ arg ∈ call.args, arg ∈ captures.map (fun c => c.var) := by
  intro arg harg
  obtain ⟨f, -, -, -, hargs⟩ := h
  obtain ⟨param, -, hholds⟩ := exists_right hargs harg
  exact hholds.mem

theorem AltResult.variables_mem {captures : List Capture} {type : ValueType} {result : AltResult}
    (h : result.Typed p captures type) :
    ∀ var ∈ result.variables, var ∈ captures.map (fun c => c.var) := by
  cases result with
  | consumed => exact fun _ hvar => (nomatch hvar)
  | capture other =>
    intro var hvar
    obtain rfl := List.mem_singleton.mp hvar
    exact h.mem
  | concat vars => exact fun var hvar => (h.2.2 var hvar).mem
  | action call => exact ActionCall.args_mem h

/-- The captures of a well-typed row have names that differ. -/
theorem distinct_captures {elements : List Element} : ∀ {earlier : List Capture},
    elementsTyped p earlier elements →
    ((elements.filterMap (fun e => e.capture)).map (fun c => c.var)).Nodup →
    DistinctNames ((elements.filterMap (fun e => e.capture)).map (fun c => c.var)) := by
  intro earlier htyped hnodup
  refine Naming.pairwise_of_small (fun name hname => ?_) hnodup
  obtain ⟨c, hc, rfl⟩ := List.mem_map.mp hname
  clear hnodup hname
  induction elements generalizing earlier with
  | nil => cases hc
  | cons e rest ih =>
    rw [elementsTyped_cons] at htyped
    rw [captures_cons, List.mem_append] at hc
    rcases hc with hc | hc
    · obtain ⟨-, i, q, hvar⟩ := htyped.2.1 c (Option.mem_toList.mp hc)
      rw [hvar]
      exact (Naming.spelled_captureVar i q).small
    · exact ih htyped.2.2 hc

mutual

theorem Matcher.inBlock : ∀ (m : Matcher) {earlier : List Capture} {names : List String},
    m.Typed p earlier → earlier.map (fun c => c.var) ⊆ names → InBlock names m.bindings
  | .literal _, _, _, _, _ => by
    rw [Matcher.bindings]
    exact .nil
  | .class _, _, _, _, _ => by
    rw [Matcher.bindings]
    exact .nil
  | .anyChar, _, _, _, _ => by
    rw [Matcher.bindings]
    exact .nil
  | .endOfInput, _, _, _, _ => by
    rw [Matcher.bindings]
    exact .nil
  | .call _, _, _, _, _ => by
    rw [Matcher.bindings]
    exact .nil
  | .choice c, _, _, h, _ => by
    rw [Matcher.Typed] at h
    rw [Matcher.bindings]
    exact c.inBlock h
  | .repeat body _ _ separator, _, _, h, hsub => by
    rw [Matcher.Typed] at h
    rw [Matcher.bindings]
    exact (separator_inBlock separator h.2 hsub).append (body.inBlock h.1 hsub)
  | .lookahead _ body, _, _, h, hsub => by
    rw [Matcher.Typed] at h
    rw [Matcher.bindings]
    exact body.inBlock h hsub
  | .predicate _ call, _, _, h, hsub => by
    rw [Matcher.Typed] at h
    rw [Matcher.bindings]
    exact .uses fun name hname => hsub (ActionCall.args_mem h name hname)

theorem separator_inBlock : ∀ (separator : Option Matcher) {earlier : List Capture}
    {names : List String}, separatorTyped p earlier separator → earlier.map (fun c => c.var) ⊆ names →
    InBlock names (separatorBindings separator)
  | none, _, _, _, _ => by
    rw [separatorBindings]
    exact .nil
  | some m, _, _, h, hsub => by
    rw [separatorTyped] at h
    rw [separatorBindings]
    exact m.inBlock h hsub

theorem Choice.inBlock : ∀ (c : Choice) {names : List String}, c.Typed p →
    InBlock names c.bindings
  | ⟨alternatives, result⟩, _, h => by
    rw [Choice.Typed] at h
    rw [Choice.bindings]
    exact alternatives_inBlock result.isSome alternatives h.1

theorem alternatives_inBlock (valued : Bool) : ∀ (alternatives : List Alternative)
    {names : List String}, alternativesTyped p alternatives →
    InBlock names (alternativesBindings valued alternatives)
  | [], _, _ => by
    rw [alternativesBindings]
    exact .nil
  | a :: rest, _, h => by
    rw [alternativesTyped] at h
    rw [alternativesBindings]
    exact (a.inBlock valued h.1).append (alternatives_inBlock valued rest h.2)

theorem Alternative.inBlock (valued : Bool) : ∀ (a : Alternative) {names : List String},
    a.Typed p → InBlock names (a.bindings valued)
  | ⟨elements, result, type⟩, _, h => by
    rw [Alternative.Typed] at h
    rw [Alternative.bindings]
    -- nothing in a row refers to captures of the rows around it
    refine .blockOf (distinct_captures h.1 h.2.1) (.append ?_ (.uses fun name hname => ?_))
    · exact elements_inBlock elements h.1 (List.Subset.refl _)
    · cases valued with
      | true => exact AltResult.variables_mem h.2.2 name hname
      | false => cases hname

theorem elements_inBlock : ∀ (elements : List Element) {earlier : List Capture}
    {names : List String}, elementsTyped p earlier elements →
    (earlier ++ elements.filterMap (fun e => e.capture)).map (fun c => c.var) ⊆ names →
    InBlock names (elementsBindings elements)
  | [], _, _, _, _ => by
    rw [elementsBindings]
    exact .nil
  | ⟨m, capture⟩ :: rest, earlier, _, h, hsub => by
    rw [elementsTyped] at h
    rw [captures_cons, List.map_append, List.map_append] at hsub
    rw [elementsBindings]
    refine .append (.append ?_ (.uses fun name hname => ?_)) ?_
    · exact m.inBlock h.1 fun name hname => hsub (List.mem_append_left _ hname)
    · exact hsub (List.mem_append_right _ (List.mem_append_left _ hname))
    · refine elements_inBlock rest h.2.2 ?_
      simpa [List.append_assoc] using hsub

end

end

end PegCompiler.Resolved
