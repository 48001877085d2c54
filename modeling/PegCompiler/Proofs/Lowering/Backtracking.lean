import PegCompiler.Proofs.Lowering.Functions
import PegCompiler.Proofs.Naming.Identifiers
import PegCompiler.Proofs.Semantics.Bindings
import PegCompiler.Proofs.Semantics.Flow
/-
  What backtracking needs of statements. A construct puts its label where all jumps to it
  are, a choice sets the cursor back in front of every alternative and a lookahead behind
  its body, and a function returns with its cursor set back. `Emits` is the invariant of
  lowering that carries this: labels have the numbers that were drawn for the statements,
  jumps stay inside the constructs that failing statements were made for, and every path
  to a return ends by the restoration of one variable.
-/

namespace PegCompiler.Lowering

open Target (Construct Event Expr Site Stmt casesPath casesSites labelsOf optionalPath stmtsPath
  stmtsSites)

/-! ## Requirements -/

/-- The last assignment of a path sets the cursor to what a variable holds; at most the
dispatch of a choice comes behind it. -/
inductive Restored (save : String) : List Event → Prop
  | last (before : List Event) : Restored save (before ++ [.assign cursorVar (.var save)])
  | dispatched (before : List Event) (index : String) :
      Restored save (before ++ [.assign cursorVar (.var save), .dispatch (.var index)])

theorem Restored.behind {save : String} {es : List Event} (h : Restored save es)
    (before : List Event) : Restored save (before ++ es) := by
  cases h with
  | last inner =>
    rw [← List.append_assoc]
    exact .last _
  | dispatched inner index =>
    rw [← List.append_assoc]
    exact .dispatched _ index

/-- A jump has a label: that of a construct around it, and for a further turn that of a
loop. -/
def JumpsOut (site : Site) : Prop :=
  match site.stmt with
  | .exit target => ∃ c ∈ site.around, target = some c.label
  | .cycle target => ∃ c ∈ site.around, c.isLoop = true ∧ target = some c.label
  | _ => True

/-- A counted loop is that of a choice, and its turns start where the choice did: the
variable that was set in front of it goes to the cursor first. -/
def StartsBack (site : Site) : Prop :=
  match site.stmt with
  | .loop label (some _) body => ∃ k, label = some (numbered "alt" k) ∧
      [keep (numbered "save" k)] <:+ site.before ∧ [restore (numbered "save" k)] <+: body
  | _ => True

/-- A block with a label is that of a lookahead, and the cursor is put back behind it: to
the variable that was set in front of it. -/
def PutsBack (site : Site) : Prop :=
  match site.stmt with
  | .block (some label) _ _ => ∃ k, label = numbered "look" k ∧
      [keep (numbered "save" k), .assign (numbered "ok" k) (.logical false)] <:+ site.before ∧
      [restore (numbered "save" k)] <+: site.after
  | _ => True

/-- A statement stands where backtracking needs it. -/
structure Sound (site : Site) : Prop where
  jump : JumpsOut site
  choice : StartsBack site
  lookahead : PutsBack site

/-! ## Labels -/

/-- The words of labels. -/
def labelWords : List String := ["alt", "rep", "look"]

/-- Labels that differ, with numbers above `lo` and up to `hi`. -/
structure Labels (lo hi : Nat) (labels : List String) : Prop where
  numbered : ∀ label ∈ labels, ∃ w ∈ labelWords, ∃ k, lo < k ∧ k ≤ hi ∧ label = numbered w k
  nodup : labels.Nodup

namespace Labels

variable {lo mid hi : Nat} {a b : List String}

theorem nil (lo hi : Nat) : Labels lo hi [] :=
  ⟨fun _ h => (nomatch h), .nil⟩

theorem mono {lo' hi' : Nat} (h : Labels lo hi a) (hlo : lo' ≤ lo) (hhi : hi ≤ hi') :
    Labels lo' hi' a where
  numbered label hlabel := by
    obtain ⟨w, hw, k, hlow, hhigh, he⟩ := h.numbered label hlabel
    exact ⟨w, hw, k, by omega, by omega, he⟩
  nodup := h.nodup

/-- Labels with lower numbers and others with higher ones. -/
theorem append (ha : Labels lo mid a) (hb : Labels mid hi b) (hlo : lo ≤ mid) (hhi : mid ≤ hi) :
    Labels lo hi (a ++ b) where
  numbered label hlabel := by
    rcases List.mem_append.mp hlabel with hlabel | hlabel
    · exact (ha.mono (Nat.le_refl lo) hhi).numbered label hlabel
    · exact (hb.mono hlo (Nat.le_refl hi)).numbered label hlabel
  nodup := by
    refine List.nodup_append.mpr ⟨ha.nodup, hb.nodup, ?_⟩
    rintro label hla other hlb rfl
    obtain ⟨w, -, j, -, hj, rfl⟩ := ha.numbered label hla
    obtain ⟨w', -, k, hk, -, he⟩ := hb.numbered _ hlb
    have hnumber := (Naming.append_number_inj he).2
    omega

/-- The label of a construct and those inside it. -/
theorem cons {w : String} (hw : w ∈ labelWords) (h : Labels (lo + 1) hi a) (hhi : lo + 1 ≤ hi) :
    Labels lo hi (Lowering.numbered w (lo + 1) :: a) := by
  have hown : Labels lo (lo + 1) [Lowering.numbered w (lo + 1)] := by
    refine ⟨fun label hlabel => ?_, by simp⟩
    obtain rfl := List.mem_singleton.mp hlabel
    exact ⟨w, hw, lo + 1, Nat.lt_succ_self lo, Nat.le_refl _, rfl⟩
  exact hown.append h (Nat.le_succ lo) hhi

/-- They also differ when case is ignored. -/
theorem distinct (h : Labels lo hi a) : Target.DistinctNames a := by
  refine Naming.pairwise_of_small (fun label hlabel => ?_) h.nodup
  obtain ⟨w, hw, k, -, -, rfl⟩ := h.numbered label hlabel
  have hsmall : ∀ w ∈ labelWords, w.toList.all Naming.isSmall = true ∧ w.toList.length ≤ 4 := by
    decide
  exact Naming.exists_small_concat ⟨4, .of_all (hsmall w hw).1 (hsmall w hw).2⟩ k

end Labels

/-! ## Where statements may stand -/

/-- Statements that can stand inside some constructs, whatever comes in front of them or
behind them; their labels have numbers above `lo` and up to `hi`. -/
structure Placed (around : List Construct) (lo hi : Nat) (stmts : List Stmt) : Prop where
  le : lo ≤ hi
  sound : ∀ {wider : List Construct} {before after : List Stmt}, around ⊆ wider →
    ∀ site ∈ stmtsSites wider before after stmts, Sound site
  labels : ∀ (wider : List Construct) (before after : List Stmt),
    Labels lo hi (labelsOf (stmtsSites wider before after stmts))

/-- The statements of several cases, one after another. -/
inductive AllPlaced (around : List Construct) : Nat → Nat → List (List Stmt) → Prop
  | nil (n : Nat) : AllPlaced around n n []
  | cons {lo mid hi : Nat} {stmts : List Stmt} {rest : List (List Stmt)}
      (h : Placed around lo mid stmts) (hrest : AllPlaced around mid hi rest) :
      AllPlaced around lo hi (stmts :: rest)

theorem AllPlaced.placed {around : List Construct} {lo hi : Nat} {stmts : List Stmt}
    (h : AllPlaced around lo hi [stmts]) : Placed around lo hi stmts := by
  cases h with
  | cons hfirst hnil =>
    cases hnil
    exact hfirst

/-- Whether it matters where a statement stands. -/
def needsPlace : Stmt → Bool
  | .exit _ | .cycle _ | .loop _ (some _) _ | .block (some _) _ _ => true
  | _ => false

theorem sound_plain {site : Site} (h : needsPlace site.stmt = false) : Sound site := by
  unfold needsPlace at h
  constructor
  · unfold JumpsOut
    split <;> simp_all
  · unfold StartsBack
    split <;> simp_all
  · unfold PutsBack
    split <;> simp_all

namespace Placed

variable {around wider : List Construct} {lo mid hi n : Nat} {a b fail stmts : List Stmt}

theorem nil (n : Nat) : Placed around n n [] where
  le := Nat.le_refl n
  sound _ site hsite := by
    rw [stmtsSites] at hsite
    exact absurd hsite List.not_mem_nil
  labels _ _ _ := by
    rw [stmtsSites]
    exact .nil n n

theorem append (ha : Placed around lo mid a) (hb : Placed around mid hi b) :
    Placed around lo hi (a ++ b) where
  le := Nat.le_trans ha.le hb.le
  sound hsub site hsite := by
    rw [Target.stmtsSites_append, List.mem_append] at hsite
    exact hsite.elim (ha.sound hsub site) (hb.sound hsub site)
  labels wider before after := by
    rw [Target.stmtsSites_append, Target.labelsOf_append]
    exact (ha.labels ..).append (hb.labels ..) ha.le hb.le

theorem mono {lo' hi' : Nat} (h : Placed around lo hi stmts) (hlo : lo' ≤ lo) (hhi : hi ≤ hi') :
    Placed around lo' hi' stmts where
  le := Nat.le_trans hlo (Nat.le_trans h.le hhi)
  sound := h.sound
  labels wider before after := (h.labels wider before after).mono hlo hhi

theorem within (h : Placed around lo hi stmts) (hsub : around ⊆ wider) :
    Placed wider lo hi stmts :=
  ⟨h.le, fun hmore => h.sound (List.Subset.trans hsub hmore), h.labels⟩

/-- A statement between others, from what is inside it. -/
theorem amid {stmt : Stmt} {front back : List Stmt} (hfront : Placed around lo lo front)
    (hback : Placed around hi hi back) (hle : lo ≤ hi)
    (hstmt : ∀ {wider before after}, around ⊆ wider → front <:+ before → back <+: after →
      Sound ⟨wider, before, stmt, after⟩)
    (hinside : ∀ {wider}, around ⊆ wider → ∀ site ∈ stmt.inside wider, Sound site)
    (hlabels : ∀ wider, Labels lo hi (stmt.label?.toList ++ labelsOf (stmt.inside wider))) :
    Placed around lo hi (front ++ ([stmt] ++ back)) where
  le := hle
  sound {wider before after} hsub site hsite := by
    rw [Target.stmtsSites_append, Target.stmtsSites_append, Target.stmtsSites_single,
      List.mem_append, List.mem_append, List.mem_cons] at hsite
    rcases hsite with hsite | (rfl | hsite) | hsite
    · exact hfront.sound hsub site hsite
    · exact hstmt hsub (List.suffix_append before front) (List.prefix_append back after)
    · exact hinside hsub site hsite
    · exact hback.sound hsub site hsite
  labels wider before after := by
    have hown : labelsOf (stmtsSites wider (before ++ front) (back ++ after) [stmt]) =
        stmt.label?.toList ++ labelsOf (stmt.inside wider) := by
      rw [Target.stmtsSites_single]
      unfold labelsOf
      rw [List.filterMap_cons]
      cases stmt.label? <;> rfl
    rw [Target.stmtsSites_append, Target.stmtsSites_append, Target.labelsOf_append,
      Target.labelsOf_append, hown]
    exact (hfront.labels ..).append ((hlabels wider).append (hback.labels ..) hle (Nat.le_refl hi))
      (Nat.le_refl lo) hle

/-- A statement that can stand anywhere, from what is inside it. -/
theorem single {stmt : Stmt} (hplain : needsPlace stmt = false) (hle : lo ≤ hi)
    (hinside : ∀ {wider}, around ⊆ wider → ∀ site ∈ stmt.inside wider, Sound site)
    (hlabels : ∀ wider, Labels lo hi (stmt.label?.toList ++ labelsOf (stmt.inside wider))) :
    Placed around lo hi [stmt] :=
  amid (nil lo) (nil hi) hle (fun _ _ _ => sound_plain hplain) hinside hlabels

/-- A statement without a label, around others. -/
theorem wrap {stmt : Stmt} (hplain : needsPlace stmt = false) (hlabel : stmt.label? = none)
    (hinside : ∀ wider, stmt.inside wider = stmtsSites wider [] [] stmts)
    (h : Placed around lo hi stmts) : Placed around lo hi [stmt] := by
  refine single hplain h.le (fun {wider} hsub => ?_) fun wider => ?_
  · rw [hinside wider]
    exact h.sound hsub
  · rw [hlabel, hinside wider]
    exact h.labels wider [] []

theorem assign (lhs : String) (rhs : Expr) (n : Nat) : Placed around n n [.assign lhs rhs] :=
  wrap rfl rfl (fun _ => by rw [Stmt.inside, stmtsSites]) (nil n)

theorem return' (n : Nat) : Placed around n n [.return] :=
  wrap rfl rfl (fun _ => by rw [Stmt.inside, stmtsSites]) (nil n)

/-- A jump to a construct around. -/
theorem jump {stmt : Stmt} (hlabel : stmt.label? = none) (hinside : ∀ wider, stmt.inside wider = [])
    (hsound : ∀ {wider before after}, around ⊆ wider → Sound ⟨wider, before, stmt, after⟩)
    (n : Nat) : Placed around n n [stmt] := by
  refine amid (nil n) (nil n) (Nat.le_refl n) (fun hsub _ _ => hsound hsub) (fun {wider} _ => ?_)
    fun wider => ?_
  · rw [hinside wider]
    exact fun _ h => nomatch h
  · rw [hlabel, hinside wider]
    exact .nil n n

theorem exit {c : Construct} (hc : c ∈ around) (n : Nat) :
    Placed around n n [.exit (some c.label)] := by
  have hsound {wider before after} (hsub : around ⊆ wider) :
      Sound ⟨wider, before, .exit (some c.label), after⟩ :=
    ⟨⟨c, hsub hc, rfl⟩, trivial, trivial⟩
  exact jump rfl (fun _ => by rw [Stmt.inside]) hsound n

theorem cycle {c : Construct} (hc : c ∈ around) (hloop : c.isLoop = true) (n : Nat) :
    Placed around n n [.cycle (some c.label)] := by
  have hsound {wider before after} (hsub : around ⊆ wider) :
      Sound ⟨wider, before, .cycle (some c.label), after⟩ :=
    ⟨⟨c, hsub hc, hloop, rfl⟩, trivial, trivial⟩
  exact jump rfl (fun _ => by rw [Stmt.inside]) hsound n

theorem when (test : Expr) (h : Placed around lo hi stmts) :
    Placed around lo hi [.when test stmts] := by
  refine wrap rfl rfl (fun wider => ?_) h
  rw [Stmt.when, Stmt.inside, Target.branchesSites, Target.optionalSites, List.append_nil,
    List.append_nil]

/-- Tests of which only the last does anything when it fails. -/
theorem tests (test : Expr) (tests : List Expr) (h : Placed around lo hi fail) :
    Placed around lo hi [.cond test [] (tests.map fun t => (t, [])) (some fail)] := by
  refine wrap rfl rfl (fun wider => ?_) h
  have hbranches : Target.branchesSites wider (tests.map fun t => (t, [])) = [] := by
    induction tests with
    | nil => rw [List.map_nil, Target.branchesSites]
    | cons t rest ih =>
      rw [List.map_cons, Target.branchesSites, stmtsSites, ih]
      rfl
  rw [Stmt.inside, stmtsSites, hbranches, Target.optionalSites]
  rfl

/-- A row in a block of its own variables. -/
theorem block (decls : List Target.Decl) (h : Placed around lo hi stmts) :
    Placed around lo hi [.block none decls stmts] := by
  refine wrap rfl rfl (fun wider => ?_) h
  rw [Stmt.inside]
  rfl

/-! ## Constructs with labels -/

/-- An endless loop. -/
theorem endless {body : List Stmt}
    (h : Placed (⟨numbered "rep" (lo + 1), true⟩ :: around) (lo + 1) hi body) :
    Placed around lo hi [.loop (some (numbered "rep" (lo + 1))) none body] := by
  refine single rfl (Nat.le_of_succ_le h.le) (fun hsub => ?_) fun wider => ?_
  · rw [Stmt.inside]
    exact h.sound (List.cons_subset_cons _ hsub)
  · rw [Stmt.inside]
    exact .cons (by decide) (h.labels ..) h.le

/-- The block of a lookahead and what stands around it. -/
theorem lookahead {body : List Stmt}
    (h : Placed (⟨numbered "look" (lo + 1), false⟩ :: around) (lo + 1) hi body) :
    Placed around lo hi [keep (numbered "save" (lo + 1)),
      .assign (numbered "ok" (lo + 1)) (.logical false),
      .block (some (numbered "look" (lo + 1))) [] body, restore (numbered "save" (lo + 1))] := by
  have hfront : Placed around lo lo
      [keep (numbered "save" (lo + 1)), .assign (numbered "ok" (lo + 1)) (.logical false)] :=
    (assign _ _ lo).append (assign _ _ lo)
  have hback : Placed around hi hi [restore (numbered "save" (lo + 1))] := assign _ _ hi
  refine amid hfront hback (Nat.le_of_succ_le h.le) (fun _ hbefore hafter => ?_) (fun hsub => ?_)
    fun wider => ?_
  · exact ⟨trivial, trivial, ⟨lo + 1, rfl, hbefore, hafter⟩⟩
  · rw [Stmt.inside]
    exact h.sound (List.cons_subset_cons _ hsub)
  · rw [Stmt.inside]
    exact .cons (by decide) (h.labels ..) h.le

/-- The cases of a choice, numbered from `n` on. -/
theorem cases {label : String} (hlabel : ⟨label, true⟩ ∈ around) {rows : List (List Stmt)}
    (h : AllPlaced around lo hi rows) (n : Nat) :
    lo ≤ hi ∧
    (∀ {wider}, around ⊆ wider → ∀ site ∈ casesSites wider
      ((rows.zipIdx n).map fun (body, n) => (n, body ++ [.exit (some label)])), Sound site) ∧
    ∀ wider, Labels lo hi (labelsOf (casesSites wider
      ((rows.zipIdx n).map fun (body, n) => (n, body ++ [.exit (some label)])))) := by
  induction h generalizing n with
  | nil m =>
    refine ⟨Nat.le_refl m, fun _ => ?_, fun wider => ?_⟩
    · rw [List.zipIdx_nil, List.map_nil, casesSites]
      exact fun _ h => nomatch h
    · rw [List.zipIdx_nil, List.map_nil, casesSites]
      exact .nil m m
  | cons hrow hrest ih =>
    obtain ⟨hle, hsound, hlabels⟩ := ih (n + 1)
    have hcase := hrow.append (exit hlabel _)
    refine ⟨Nat.le_trans hrow.le hle, fun hsub => ?_, fun wider => ?_⟩
    · rw [List.zipIdx_cons, List.map_cons, casesSites]
      intro site hsite
      rcases List.mem_append.mp hsite with hsite | hsite
      · exact hcase.sound hsub site hsite
      · exact hsound hsub site hsite
    · rw [List.zipIdx_cons, List.map_cons, casesSites, Target.labelsOf_append]
      exact (hcase.labels ..).append (hlabels wider) hrow.le hle

/-- The loop of a choice and what stands in front of it. -/
theorem choiceLoop {rows : List (List Stmt)}
    (h : AllPlaced (⟨numbered "alt" (lo + 1), true⟩ :: around) (lo + 1) hi rows)
    (hfail : Placed around hi hi fail) (index : String) :
    Placed around lo hi [keep (numbered "save" (lo + 1)),
      choiceLoop (numbered "alt" (lo + 1)) index (numbered "save" (lo + 1)) rows fail] := by
  obtain ⟨hle, hsound, hlabels⟩ := cases (List.mem_cons_self ..) h 0
  have hselect : Placed (⟨numbered "alt" (lo + 1), true⟩ :: around) (lo + 1) hi
      [.select (.var index) ((rows.zipIdx 0).map fun (body, n) =>
        (n, body ++ [.exit (some (numbered "alt" (lo + 1)))])) (some fail)] := by
    have hfail' := hfail.within (List.subset_cons_self ⟨numbered "alt" (lo + 1), true⟩ around)
    refine single rfl hle (fun hsub => ?_) fun wider => ?_
    · rw [Stmt.inside, Target.optionalSites]
      intro site hsite
      rcases List.mem_append.mp hsite with hsite | hsite
      · exact hsound hsub site hsite
      · exact hfail'.sound hsub site hsite
    · rw [Stmt.inside, Target.optionalSites]
      show Labels (lo + 1) hi (labelsOf (casesSites .. ++ _))
      rw [Target.labelsOf_append]
      exact (hlabels wider).append (hfail'.labels ..) hle (Nat.le_refl hi)
  have hbody := (assign cursorVar (.var (numbered "save" (lo + 1))) (lo + 1)).append hselect
  have hfront : Placed around lo lo [keep (numbered "save" (lo + 1))] := assign _ _ lo
  refine amid hfront (nil hi) (Nat.le_of_succ_le hle) (fun _ hbefore _ => ?_) (fun hsub => ?_)
    fun wider => ?_
  · exact ⟨trivial, ⟨lo + 1, rfl, hbefore, List.prefix_append [restore _] _⟩, trivial⟩
  · unfold Lowering.choiceLoop
    rw [Stmt.inside]
    exact hbody.sound (List.cons_subset_cons _ hsub)
  · unfold Lowering.choiceLoop
    rw [Stmt.inside]
    exact .cons (by decide) (hbody.labels ..) hle

end Placed

/-! ## How paths return -/

/-- Whenever statements return, the last assignment has set the cursor to what a variable
holds. -/
def Returning (save : String) (stmts : List Stmt) : Prop :=
  ∀ es, stmtsPath stmts es .return → Restored save es

/-- So it has when the cursor is set to what `own` holds in front of the statements, and
also when a choice is dispatched in between. -/
def ReturningBehind (save own : String) (stmts : List Stmt) : Prop :=
  ∀ es, stmtsPath stmts es .return →
    Restored save (.assign cursorVar (.var own) :: es) ∧
      ∀ index, Restored save (.assign cursorVar (.var own) :: .dispatch (.var index) :: es)

/-- What comes in front of statements that restore the cursor themselves does not matter. -/
theorem Returning.anyBehind {save : String} {stmts : List Stmt} (h : Returning save stmts)
    (own : String) : ReturningBehind save own stmts := by
  intro es hes
  have hlast := h es hes
  exact ⟨hlast.behind [_], fun index => hlast.behind [_, _]⟩

/-- A bare return does, where the variable is the same. -/
theorem returningBehind_return (save : String) : ReturningBehind save save [.return] := by
  intro es hes
  obtain ⟨rfl, -⟩ := Target.stmtsPath_single.mp hes
  exact ⟨.last [], fun index => .dispatched [] index⟩

namespace Returning

variable {save own : String} {a b fail stmts : List Stmt}

theorem nil : Returning save [] :=
  fun _ h => nomatch h.2

theorem append (ha : Returning save a) (hb : Returning save b) : Returning save (a ++ b) := by
  intro es hes
  rcases Target.path_append hes with h | ⟨first, later, rfl, -, hlater⟩
  · exact ha es h
  · exact (hb later hlater).behind first

/-- A statement that does not return. -/
theorem of_not {stmt : Stmt} (h : ∀ es, ¬ stmt.Path es .return) : Returning save [stmt] :=
  fun es hes => absurd (Target.stmtsPath_single.mp hes) (h es)

theorem assign (lhs : String) (rhs : Expr) : Returning save [.assign lhs rhs] :=
  of_not fun _ h => nomatch h.2

theorem exit (label : Option String) : Returning save [.exit label] :=
  of_not fun _ h => nomatch h.2

theorem cycle (label : Option String) : Returning save [.cycle label] :=
  of_not fun _ h => nomatch h.2

/-- Statements behind the one that sets the cursor. -/
theorem restore (h : ReturningBehind save own fail) : Returning save (restore own :: fail) := by
  intro es hes
  rw [stmtsPath] at hes
  rcases hes with ⟨-, hes⟩ | ⟨first, later, rfl, ⟨rfl, -⟩, hlater⟩
  · cases hes.2
  · exact (h later hlater).1

theorem when (test : Expr) (h : Returning save stmts) : Returning save [.when test stmts] := by
  intro es hes
  obtain ⟨rest, rfl, hbody | hnone⟩ := Target.stmtsPath_single.mp hes
  · exact (h rest hbody).behind [_]
  · nomatch hnone.2

theorem tests (test : Expr) (tests : List Expr) (h : Returning save fail) :
    Returning save [.cond test [] (tests.map fun t => (t, [])) (some fail)] := by
  have hbranches : ∀ (tests : List Expr) (es : List Event),
      Target.branchesPath (optionalPath (some fail)) (tests.map fun t => (t, [])) es .return →
        Restored save es := by
    intro tests
    induction tests with
    | nil => exact fun es hes => h es hes
    | cons t rest ih =>
      rintro es ⟨later, rfl, hskip | hrest⟩
      · nomatch hskip.2
      · exact (ih later hrest).behind [_]
  intro es hes
  obtain ⟨rest, rfl, hbody | hrest⟩ := Target.stmtsPath_single.mp hes
  · nomatch hbody.2
  · exact (hbranches tests rest hrest).behind [_]

theorem block (label : Option String) (decls : List Target.Decl) (h : Returning save stmts) :
    Returning save [.block label decls stmts] := by
  intro es hes
  obtain ⟨inner, hbody, hinner⟩ := Target.stmtsPath_single.mp hes
  obtain rfl := Target.returns_of_afterBlock hinner.symm
  exact h es hbody

/-- A loop returns in its last turn. -/
theorem loop (label : Option String) (range : Option Target.DoRange) (h : Returning save stmts) :
    Returning save [.loop label range stmts] := by
  intro es hes
  have hturns : Target.Turns label range (stmtsPath stmts) es .return :=
    Target.stmtsPath_single.mp hes
  clear hes
  generalize hsignal : Target.Signal.return = signal at hturns
  induction hturns with
  | ended => nomatch hsignal
  | left hbody hleft =>
    subst hsignal
    obtain rfl := Target.returns_of_afterTurn hleft
    exact (h _ hbody).behind _
  | again hbody hagain hrest ih => exact (ih hsignal).behind _

/-- The loop of a choice: its alternatives restore the cursor themselves, and what is run
when they have all failed has the cursor set back in front of it. -/
theorem choiceLoop {label index : String} {rows : List (List Stmt)}
    (hrows : ∀ row ∈ rows, Returning save row) (hfail : ReturningBehind save own fail) :
    Returning save [Lowering.choiceLoop label index own rows fail] := by
  have hcases : ∀ (rows : List (List Stmt)) (n : Nat), (∀ row ∈ rows, Returning save row) →
      ∀ es, casesPath ((rows.zipIdx n).map fun (body, n) => (n, body ++ [.exit (some label)])) es
        .return → Restored save es := by
    intro rows
    induction rows with
    | nil => exact fun n _ es hes => nomatch hes
    | cons row rest ih =>
      intro n hrows es hes
      rw [List.zipIdx_cons, List.map_cons, casesPath] at hes
      rcases hes with hes | hes
      · exact ((hrows row (List.mem_cons_self ..)).append (exit _)) es hes
      · exact ih (n + 1) (fun r hr => hrows r (List.mem_cons_of_mem row hr)) es hes
  refine loop _ _ fun es hes => ?_
  rw [stmtsPath] at hes
  rcases hes with ⟨-, hes⟩ | ⟨first, later, rfl, ⟨rfl, -⟩, hlater⟩
  · cases hes.2
  · obtain ⟨rest, rfl, hcase | hdefault⟩ := Target.stmtsPath_single.mp hlater
    · exact (hcases rows 0 hrows rest hcase).behind [_, _]
    · exact (hfail rest hdefault).2 index

end Returning

end PegCompiler.Lowering
