import PegCompiler.Proofs.Fails
import PegCompiler.Proofs.Validity.Visits
/-
  The defects of nodes, and the checks that find them. `Node.Has` says which defects a
  node has at its place, again of the grammar alone; a node with a defect is not in
  order. A check that fails blames its own node: the defect of its message is one that
  the node has, and the location is that of the node.
-/

namespace PegCompiler

namespace Grammar

open Resolution (Defect Location Malformed)
open Resolved (ValueType isIdentifier resultVar sameName)

/-- A defect that a node has at its place, for the types of rules. -/
inductive Node.Has (typeOf : String → ValueType) (place : Place) : Node → Defect → Prop
  | emptyChoice : Has typeOf place (.choice []) .emptyChoice
  | actionInGroup {es : List Element} {code : String} (nested : place.nested = true) :
    Has typeOf place (.row es (some code)) .actionInGroup
  /-- One of several values that a row is made of is not a text. -/
  | mixedConcat {es : List Element} {var : String} {type : ValueType}
    (capturing : place.capturing = true) (several : 2 ≤ (valueTypes typeOf es).length)
    (found : type ∈ valueTypes typeOf es) (other : type ≠ .text) :
    Has typeOf place (.row es none) (.mixedConcat var type)
  | invalidLabel {earlier : List Element} {l : String} (spelling : isIdentifier l = false) :
    Has typeOf place (.label earlier l) (.invalidLabel l)
  | reservedLabel {earlier : List Element} {l : String} (taken : sameName l resultVar = true) :
    Has typeOf place (.label earlier l) (.reservedLabel l)
  | repeatedLabel {earlier : List Element} {l other : String}
    (capturing : place.capturing = true) (found : other ∈ earlier.filterMap Element.label?)
    (same : sameName other l = true) : Has typeOf place (.label earlier l) (.repeatedLabel l)
  | capturedGroupType {as : List Alternative} {a : Alternative}
    (capturing : place.capturing = true) (found : a ∈ as)
    (other : joinedType (valueTypes typeOf a.elements) ≠ .text) :
    Has typeOf place (.namedGroup as) (.capturedGroupType (joinedType (valueTypes typeOf a.elements)))
  | emptyClass : Has typeOf place (.class []) .emptyClass
  | foreignChar {items : List ClassItem} {c : Char} (found : .char c ∈ items)
    (foreign : 128 ≤ c.toNat) : Has typeOf place (.class items) (.foreignChar c)
  | foreignRange {items : List ClassItem} {bottom top : Char} (found : .range bottom top ∈ items)
    (foreign : 128 ≤ bottom.toNat ∨ 128 ≤ top.toNat) :
    Has typeOf place (.class items) (.foreignRange bottom top)
  | reversedRange {items : List ClassItem} {bottom top : Char} (found : .range bottom top ∈ items)
    (reversed : top < bottom) : Has typeOf place (.class items) (.reversedRange bottom top)
  | zeroCount : Has typeOf place (.quantifier (.exact 0)) .zeroCount
  | zeroSeparated {separator : Expr} :
    Has typeOf place (.quantifier (.separated 0 separator)) .zeroCount
  | unboundedRange : Has typeOf place (.quantifier (.range none none)) .unboundedRange
  | zeroUpperBound {min : Option UInt32} :
    Has typeOf place (.quantifier (.range min (some 0))) .zeroUpperBound
  | reversedBounds {lo hi : UInt32} (reversed : hi < lo) :
    Has typeOf place (.quantifier (.range (some lo) (some hi))) (.reversedBounds lo hi)
  | blankBound {min max : Option String} {code : String} (bound : min = some code ∨ max = some code)
    (blank : Text.isBlankText code = true) :
    Has typeOf place (.quantifier (.computed min max)) .blankBound
  | predicateInSeparator {earlier : List Element} {p : Predicate} (inside : place.separator = true) :
    Has typeOf place (.predicate earlier p) .predicateInSeparator
  | predicateType {earlier : List Element} {p : Predicate} (given : Text.trimmed p.returnType ≠ "")
    (other : sameName (Text.trimmed p.returnType) "logical" = false) :
    Has typeOf place (.predicate earlier p) (.predicateType (Text.trimmed p.returnType))
  | invalidParam {earlier : List Element} {p : Predicate} {q : PredicateParam} (found : q ∈ p.params)
    (name : isIdentifier q.name = false ∨ sameName q.name resultVar = true) :
    Has typeOf place (.predicate earlier p) (.invalidParam q.name)
  | repeatedParam {earlier : List Element} {p : Predicate} {front back : List PredicateParam}
    {q r : PredicateParam} (params : p.params = front ++ q :: back) (found : r ∈ front)
    (same : sameName r.name q.name = true) :
    Has typeOf place (.predicate earlier p) (.repeatedParam q.name)
  | unknownSource {earlier : List Element} {p : Predicate} {q : PredicateParam}
    (found : q ∈ p.params) (unknown : place.capturing = true → ¬ Provides earlier q.source) :
    Has typeOf place (.predicate earlier p) (.unknownSource q.source)

/-- A node with a defect is not in order. -/
theorem Node.Has.not_sound {typeOf : String → ValueType} {place : Place} {n : Node} {d : Defect}
    (h : n.Has typeOf place d) : ¬ n.Sound typeOf place := by
  intro hs
  cases h with
  | emptyChoice => exact hs rfl
  | actionInGroup nested => exact absurd (nested.symm.trans hs) (by decide)
  | mixedConcat capturing several found other => exact other (hs capturing several _ found)
  | invalidLabel spelling => exact absurd (spelling.symm.trans hs.1) (by decide)
  | reservedLabel taken => exact absurd (taken.symm.trans hs.2.1) (by decide)
  | repeatedLabel capturing found same =>
    exact absurd (same.symm.trans (hs.2.2 capturing _ found)) (by decide)
  | capturedGroupType capturing found other => exact other (hs capturing _ found)
  | emptyClass => exact hs.1 rfl
  | foreignChar found foreign => exact absurd (hs.2 _ found) (Nat.not_lt.mpr foreign)
  | foreignRange found foreign =>
    obtain ⟨hbottom, htop, -⟩ := hs.2 _ found
    omega
  | reversedRange found reversed => exact absurd (hs.2 _ found).2.2 (Char.not_le.mpr reversed)
  | zeroCount => exact UInt32.lt_irrefl 0 hs
  | zeroSeparated => exact UInt32.lt_irrefl 0 hs
  | unboundedRange => exact absurd hs.1 (by simp)
  | zeroUpperBound => exact hs.2.1 rfl
  | reversedBounds reversed => exact absurd (hs.2.2 _ _ rfl rfl) (UInt32.not_le.mpr reversed)
  | blankBound bound blank => exact absurd (blank.symm.trans (hs _ bound)) (by decide)
  | predicateInSeparator inside => exact absurd (inside.symm.trans hs.1) (by decide)
  | predicateType given other =>
    rcases hs.2.1.returns with h | h
    · exact given h
    · exact absurd (other.symm.trans h) (by decide)
  | invalidParam found name =>
    obtain ⟨hident, hresult⟩ := hs.2.1.params _ found
    simp [hident, hresult] at name
  | repeatedParam params found same =>
    have hdistinct := hs.2.1.distinct
    rw [params, List.pairwise_append] at hdistinct
    exact absurd (same.symm.trans (hdistinct.2.2 _ found _ (by simp))) (by decide)
  | unknownSource found unknown =>
    obtain ⟨hcapturing, hprovides⟩ := hs.2.2 _ found
    exact unknown hcapturing hprovides

/-- The location that messages about the nodes of a place give. -/
def Place.location (place : Place) : Location :=
  .alternative place.rule place.alternative

/-- A message is about a node: it has the defect, and the location is that of the
node. -/
structure Node.Blamed (typeOf : String → ValueType) (place : Place) (n : Node) (m : Malformed) :
    Prop where
  has : n.Has typeOf place m.defect
  location : m.location = place.location

end Grammar

namespace Resolution

open Grammar (Alternative ClassItem Element Node Place Predicate PredicateParam Quantifier)
open Resolved (ValueType isIdentifier resultVar sameName)

variable {env : Env} {ctx : Context} {out : Emitted} {m : Malformed}

theorem fails_refuse {α : Type} {defect : Defect} :
    Fails (refuse ctx defect : Resolve α) out m ↔ m = ctx.malformed defect := by
  rw [refuse, Fails.throw_iff, eq_comm]

theorem fails_refuse_bind {α β : Type} {defect : Defect} {f : α → Resolve β} :
    Fails (refuse ctx defect >>= f) out m ↔ m = ctx.malformed defect := by
  rw [Fails.bind_iff, fails_refuse]
  simp [refuse]

/-- A message that is made at a node is about it if the node has the defect. -/
theorem blamed_of_has {typeOf : String → ValueType} {n : Node} {defect : Defect}
    (h : n.Has typeOf ctx.place defect) : n.Blamed typeOf ctx.place (ctx.malformed defect) :=
  ⟨h, rfl⟩

/-! ## Choices and groups -/

/-- A choice that is refused is empty. -/
theorem of_fails_checkChoice {as : List Alternative} (h : Fails (checkChoice ctx as) out m) :
    as = [] ∧ m = ctx.malformed .emptyChoice := by
  unfold checkChoice at h
  split at h
  next hempty => exact ⟨List.isEmpty_iff.mp hempty, fails_refuse.mp h⟩
  next => simp at h

/-- The choice of a group is refused in the context inside, which has the location of the
group. -/
theorem blamed_choice {typeOf : String → ValueType} {place : Place} {as : List Alternative}
    (hplace : ctx.location = place.location) (h : Fails (checkChoice ctx as) out m) :
    (Node.choice as).Blamed typeOf place m := by
  obtain ⟨rfl, rfl⟩ := of_fails_checkChoice h
  exact ⟨.emptyChoice, hplace⟩

/-- A captured group that is refused has an alternative that is not of type text. -/
theorem blamed_group {as : List Alternative} {rs : List Resolved.Alternative}
    (hc : ctx.capturing = true)
    (hnodes : ∀ n ∈ Grammar.alternativesNodes ctx.place.inGroup as, n.2.Sound env.typeOf n.1)
    (htypes : rs.map (fun r => r.resultType) = choiceTypes env ctx.enterGroup 0 as)
    (h : Fails (checkGroup ctx rs) out m) : (Node.namedGroup as).Blamed env.typeOf ctx.place m := by
  unfold checkGroup at h
  split at h
  next r hr =>
    obtain rfl := fails_refuse.mp h
    have hmem : r.resultType ∈ rs.map (fun r => r.resultType) :=
      List.mem_map_of_mem (List.mem_of_find?_eq_some hr)
    rw [htypes, choiceTypes_nested _ rfl _ hnodes] at hmem
    obtain ⟨a, ha, htype⟩ := List.mem_map.mp hmem
    have hother : r.resultType ≠ .text := by
      intro htext
      simpa [htext, ValueType.isText] using List.find?_some hr
    rw [← htype] at hother ⊢
    exact blamed_of_has (.capturedGroupType hc ha hother)
  next => simp at h

/-! ## Classes and quantifiers -/

/-- What is found wrong with an item of a class is wrong with the class. -/
theorem has_of_itemDefect {typeOf : String → ValueType} {items : List ClassItem} {item : ClassItem}
    {defect : Defect} (hitem : item ∈ items) (h : itemDefect item = some defect) :
    (Node.class items).Has typeOf ctx.place defect := by
  cases item with
  | char c =>
    by_cases hforeign : c.toNat < 128
    · simp [itemDefect, isAscii, hforeign] at h
    · obtain rfl : Defect.foreignChar c = defect := by simpa [itemDefect, isAscii, hforeign] using h
      exact .foreignChar hitem (Nat.not_lt.mp hforeign)
  | range bottom top =>
    rw [itemDefect] at h
    split at h
    next hforeign =>
      obtain rfl := Option.some.inj h
      exact .foreignRange hitem (by simpa [isAscii] using hforeign)
    next =>
      split at h
      next hreversed =>
        obtain rfl := Option.some.inj h
        exact .reversedRange hitem hreversed
      next => cases h

theorem blamed_class {typeOf : String → ValueType} {items : List ClassItem}
    (h : Fails (resolveClass ctx items) out m) :
    (Node.class items).Blamed typeOf ctx.place m := by
  unfold resolveClass at h
  split at h
  next defect hdefect =>
    obtain rfl := fails_refuse.mp h
    refine blamed_of_has ?_
    cases items with
    | nil =>
      obtain rfl := Option.some.inj hdefect
      exact .emptyClass
    | cons item rest =>
      rw [classDefect] at hdefect
      · obtain ⟨found, hfound, hdefect⟩ := List.exists_of_findSome?_eq_some hdefect
        exact has_of_itemDefect hfound hdefect
      · simp
  next => simp at h

/-- A count that is refused is zero. -/
theorem of_fails_exactBounds {count : UInt32} (h : Fails (exactBounds ctx count) out m) :
    count = 0 ∧ m = ctx.malformed .zeroCount := by
  unfold exactBounds at h
  split at h
  next hzero => exact ⟨by simpa using hzero, fails_refuse.mp h⟩
  next => simp at h

theorem blamed_range {typeOf : String → ValueType} {min max : Option UInt32}
    (h : Fails (rangeBounds ctx min max) out m) :
    (Node.quantifier (.range min max)).Blamed typeOf ctx.place m := by
  unfold rangeBounds at h
  split at h
  next defect hdefect =>
    obtain rfl := fails_refuse.mp h
    refine blamed_of_has ?_
    unfold rangeDefect at hdefect
    split at hdefect
    next =>
      obtain rfl := Option.some.inj hdefect
      exact .unboundedRange
    next hi =>
      split at hdefect
      next hzero =>
        obtain rfl := Option.some.inj hdefect
        obtain rfl : hi = 0 := by simpa using hzero
        exact .zeroUpperBound
      next =>
        split at hdefect
        next lo =>
          split at hdefect
          next hreversed =>
            obtain rfl := Option.some.inj hdefect
            exact .reversedBounds hreversed
          next => cases hdefect
        next => cases hdefect
    next => cases hdefect
  next => simp at h

/-- A bound in code that is refused is blank. -/
theorem of_fails_computedBound {bound : Option String} (h : Fails (computedBound ctx bound) out m) :
    ∃ code, bound = some code ∧ Text.isBlankText code = true ∧ m = ctx.malformed .blankBound := by
  unfold computedBound at h
  split at h
  next => simp at h
  next code =>
    split at h
    next hblank => exact ⟨code, rfl, hblank, fails_refuse.mp h⟩
    next => simp at h

/-! ## Labels and predicates -/

namespace RowOf

variable {earlier : List Element} {row : Row}

/-- A label that is refused is taken or not one. -/
theorem blamed_label (hrow : RowOf env ctx earlier row) (hlabels : row.labels = ctx.labels)
    {label : Option String} (h : Fails (checkLabel ctx label) out m) :
    ∃ l, label = some l ∧ (Node.label earlier l).Blamed env.typeOf ctx.place m := by
  cases label with
  | none => simp [checkLabel] at h
  | some l =>
    refine ⟨l, rfl, ?_⟩
    unfold checkLabel at h
    dsimp only at h
    split at h
    next defect hdefect =>
      obtain rfl := fails_refuse.mp h
      refine blamed_of_has ?_
      unfold labelDefect at hdefect
      split at hdefect
      next hspelling =>
        obtain rfl := Option.some.inj hdefect
        exact .invalidLabel (by simpa using hspelling)
      next =>
        split at hdefect
        next htaken =>
          obtain rfl := Option.some.inj hdefect
          exact .reservedLabel htaken
        next =>
          split at hdefect
          next hrepeated =>
            obtain rfl := Option.some.inj hdefect
            obtain ⟨b, hb⟩ := Option.isSome_iff_exists.mp hrepeated
            have hmem : b.label ∈ row.labels.map (fun b => b.label) := by
              rw [hlabels]
              exact List.mem_map_of_mem (List.mem_of_find?_eq_some hb)
            rw [hrow.labels] at hmem
            -- where no values are kept, no label has been bound
            cases hc : ctx.capturing with
            | false => simp [hc] at hmem
            | true =>
              rw [hc, if_pos rfl] at hmem
              have hsame : sameName b.label l = true := by
                unfold Context.lookupLabel at hb
                simpa using List.find?_some hb
              exact .repeatedLabel hc hmem hsame
          next => cases hdefect
    next => simp at h

end RowOf

/-- What is wrong with parameters behind others, whose names are known. -/
theorem of_fails_predicateParams : ∀ {ps : List PredicateParam} (front : List PredicateParam)
    {params : List Resolved.Param} {args : List String},
    params.map (fun q => q.name) = front.map (fun q => q.name) →
    Fails (predicateParams ctx params args ps) out m →
    ∃ before q after, ps = before ++ q :: after ∧
      ((isIdentifier q.name = false ∨ sameName q.name resultVar = true) ∧
          m = ctx.malformed (.invalidParam q.name) ∨
        (∃ r ∈ front ++ before, sameName r.name q.name = true) ∧
          m = ctx.malformed (.repeatedParam q.name) ∨
        sourceBinding ctx q.source = none ∧ m = ctx.malformed (.unknownSource q.source))
  | [], _, _, _, _, h => by simp [predicateParams] at h
  | q :: ps, front, params, args, hnames, h => by
    unfold predicateParams at h
    split at h
    next hname =>
      exact ⟨[], q, ps, rfl, .inl ⟨by simpa using hname, fails_refuse.mp h⟩⟩
    next =>
      split at h
      next hrepeated =>
        obtain ⟨name, hname, hsame⟩ : ∃ name ∈ params.map (fun q => q.name),
            sameName name q.name = true := by simpa using hrepeated
        rw [hnames] at hname
        obtain ⟨r, hr, rfl⟩ := List.mem_map.mp hname
        have hr : r ∈ front ++ [] := List.mem_append_left _ hr
        exact ⟨[], q, ps, rfl, .inr (.inl ⟨⟨r, hr, hsame⟩, fails_refuse.mp h⟩)⟩
      next =>
        split at h
        next hsource => exact ⟨[], q, ps, rfl, .inr (.inr ⟨hsource, fails_refuse.mp h⟩)⟩
        next binding _ =>
          obtain ⟨before, r, after, rfl, hr⟩ :=
            of_fails_predicateParams (front ++ [q]) (by simp [hnames]) h
          refine ⟨q :: before, r, after, rfl, ?_⟩
          rwa [List.append_assoc] at hr

/-- A predicate that is refused has something wrong with its place, its type or its
parameters. -/
theorem RowOf.blamed_predicate {earlier : List Element} {row : Row}
    (hrow : RowOf env ctx earlier row) (hlabels : row.labels = ctx.labels)
    (hvalues : row.ruleValues = ctx.ruleValues) {p : Predicate}
    (hsources : p.params.map (fun q => q.source) ⊆ ctx.predicateSources)
    (h : Fails (resolvePredicate ctx p) out m) :
    (Node.predicate earlier p).Blamed env.typeOf ctx.place m := by
  unfold resolvePredicate at h
  dsimp only at h
  split at h
  next hinside =>
    obtain rfl := fails_refuse_bind.mp h
    exact blamed_of_has (.predicateInSeparator hinside)
  next =>
    split at h
    next htype =>
      obtain rfl := fails_refuse_bind.mp h
      obtain ⟨hgiven, hother⟩ : Text.trimmed p.returnType ≠ "" ∧
          sameName (Text.trimmed p.returnType) "logical" = false := by simpa using htype
      exact blamed_of_has (.predicateType hgiven hother)
    next =>
      simp only [Fails.bind_iff, Fails.pure_iff, Fails.modify_iff, Fails.modifyGet_iff, and_false,
        exists_false, or_false] at h
      obtain ⟨before, q, after, hparams, hq⟩ := of_fails_predicateParams [] rfl h
      have hmem : q ∈ p.params := by simp [hparams]
      rcases hq with ⟨hname, rfl⟩ | ⟨⟨r, hr, hsame⟩, rfl⟩ | ⟨hnone, rfl⟩
      · exact blamed_of_has (.invalidParam hmem hname)
      · exact blamed_of_has (.repeatedParam hparams hr hsame)
      · refine blamed_of_has (.unknownSource hmem fun hc hprovides => ?_)
        have hsource := (hrow.source hlabels hvalues
          (hsources (List.mem_map_of_mem hmem))).mpr ⟨hc, hprovides⟩
        simp [hnone] at hsource

/-! ## Values of rows -/

/-- Captures that cannot be put together are several, and one of them is not a text. -/
theorem of_fails_concatResult {cs : List (String × ValueType)}
    (h : Fails (concatResult ctx cs) out m) : 2 ≤ cs.length ∧ ∃ c ∈ cs, c.2 ≠ .text ∧
      m = ctx.malformed (.mixedConcat c.1 c.2) := by
  unfold concatResult at h
  split at h
  next => simp at h
  next => simp at h
  next hnil hone =>
    split at h
    next var type hfind =>
      have hother : type ≠ .text := by
        rintro rfl
        simpa [ValueType.isText] using List.find?_some hfind
      refine ⟨?_, (var, type), List.mem_of_find?_eq_some hfind, hother, fails_refuse.mp h⟩
      rcases cs with _ | ⟨⟨var, type⟩, _ | ⟨_, _⟩⟩
      · exact absurd rfl hnil
      · exact absurd rfl (hone var type)
      · simp
    next => simp at h

/-- A row without a value has an action in a group, or values that cannot be put
together. -/
theorem RowOf.blamed_row {elements : List Element} {row : Row}
    (hrow : RowOf env ctx elements row) {action : Option String}
    (h : Fails (rowValue env ctx row action) out m) :
    (Node.row elements action).Blamed env.typeOf ctx.place m := by
  cases action with
  | some code =>
    unfold rowValue actionValue at h
    dsimp only at h
    split at h
    next hnested =>
      obtain rfl := fails_refuse_bind.mp h
      exact blamed_of_has (.actionInGroup hnested)
    next =>
      simp only [Fails.bind_iff, Fails.modify_iff, Fails.pure_iff, and_false, exists_false,
        or_false] at h
  | none =>
    have hconcat : rowValue env ctx row none = concatResult ctx row.valueCaptures := by
      show (if row.plucks.isEmpty then _ else _) = _
      unfold Row.valueCaptures
      split <;> rfl
    rw [hconcat] at h
    obtain ⟨hseveral, c, hc, hother, rfl⟩ := of_fails_concatResult h
    have htypes := hrow.valueCaptures
    have hmem : c.2 ∈ row.valueCaptures.map (fun c => c.2) := List.mem_map_of_mem hc
    rw [← List.length_map (fun c => c.2), htypes] at hseveral
    rw [htypes] at hmem
    cases hcapturing : ctx.capturing with
    | false => simp [hcapturing] at hmem
    | true =>
      rw [hcapturing, if_pos rfl] at hmem hseveral
      exact blamed_of_has (.mixedConcat hcapturing hseveral hmem hother)

end Resolution

end PegCompiler
