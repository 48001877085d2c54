import PegCompiler.Proofs.Json.Plain
/-
  Records, lists and variants read as they are written. An object is read entry by entry:
  `Fills` says that entries fill the slots of a record one after another, and
  `entries_of_fills` that the reader then stops at the end of the object with all of them.
  Pieces are read in the room of a text that is longer than what is left, so there is room
  for each.
-/

namespace PegCompiler.Json

/-! ## Separators -/

section
variable {β : Type} (rest : List Char)

theorem nextEntry_first : nextEntry true ('"' :: rest) = .ok (true, rest) := by
  unfold nextEntry
  rw [peek_bind (by decide)]
  rfl

theorem nextEntry_more : nextEntry false (',' :: '"' :: rest) = .ok (true, rest) := by
  unfold nextEntry
  rw [peek_bind (by decide)]
  change (drop >>= fun _ => peek >>= _) _ = _
  rw [drop_bind, peek_bind (by decide)]
  rfl

theorem nextEntry_end (first : Bool) :
    nextEntry first ('\x7d' :: rest) = .ok (false, '\x7d' :: rest) := by
  unfold nextEntry
  rw [peek_bind (by decide)]
  rfl

theorem nextItem_end (first : Bool) : nextItem first (']' :: rest) = .ok (false, ']' :: rest) := by
  unfold nextItem
  rw [peek_bind (by decide)]
  rfl

variable {rest}

/-- A character that does not end an array is the first of an item. -/
theorem match_item {α : Type} {c : Char} (hend : c ≠ ']') (x y : α) (z : Char → α) :
    (match some c with
      | some ']' => x
      | none => y
      | some c => z c) = z c := by
  split
  · next heq => exact absurd (Option.some.inj heq) hend
  · next heq => nomatch heq
  · next heq => rw [Option.some.inj heq]

theorem nextItem_first {c : Char} (hspace : isSpace c = false) (hend : c ≠ ']') :
    nextItem true (c :: rest) = .ok (true, c :: rest) := by
  unfold nextItem
  rw [peek_bind hspace]
  exact congrFun (match_item hend _ _ _) _

theorem nextItem_more {c : Char} (hspace : isSpace c = false) (hend : c ≠ ']') :
    nextItem false (',' :: c :: rest) = .ok (true, c :: rest) := by
  unfold nextItem
  rw [peek_bind (by decide)]
  change (drop >>= fun _ => peek >>= _) _ = _
  rw [drop_bind, peek_bind hspace]
  refine congrFun (?_ : _ = (pure true : Reader Bool)) _
  split
  · next heq => exact absurd (Option.some.inj heq) hend
  · rfl
  · next heq => cases heq

theorem colon_cons : colon (':' :: rest) = .ok ((), rest) := by
  unfold colon
  rw [peek_bind (by decide)]
  rfl

theorem endObject_cons : endObject ('\x7d' :: rest) = .ok ((), rest) := by
  unfold endObject
  rw [peek_bind (by decide)]
  rfl

theorem endArray_cons : endArray (']' :: rest) = .ok ((), rest) := by
  unfold endArray
  rw [peek_bind (by decide)]
  rfl

theorem settle_ok {α : Type} {close : List Char → List Char} {read : Reader α}
    {text : List Char} {a : α} (h : read text = .ok (a, rest)) :
    settle close read text = .ok (a, rest) := by
  unfold settle
  rw [h]

end

/-! ## Objects -/

/-- Entries fill the slots of a record one after another. -/
inductive Fills {σ : Type} (entry : String → σ → Option (Reader σ)) :
    σ → List (String × Json) → σ → Prop where
  | nil {slots : σ} : Fills entry slots [] slots
  | cons {slots next last : σ} {key : String} {v : Json} {rest : List (String × Json)}
      {read : Reader σ} : entry key slots = some read → Reads read (':' :: v.text) next →
      Fills entry next rest last → Fills entry slots ((key, v) :: rest) last

/-- The text of further entries, the first of them or those behind another. -/
def moreEntries : Bool → List (String × Json) → List Char
  | true, entries => entriesText entries
  | false, [] => []
  | false, e :: entries => ',' :: entriesText (e :: entries)

theorem entriesText_cons (key : String) (v : Json) (rest : List (String × Json)) :
    entriesText ((key, v) :: rest) =
      stringText key ++ ':' :: (v.text ++ moreEntries false rest) := by
  cases rest with
  | nil => rw [entriesText, moreEntries, List.append_nil]
  | cons e rest =>
    rw [entriesText, moreEntries]
    rintro ⟨⟩

theorem length_le_entriesText (entries : List (String × Json)) :
    entries.length ≤ (entriesText entries).length := by
  induction entries with
  | nil => exact Nat.zero_le _
  | cons e rest ih =>
    obtain ⟨key, v⟩ := e
    rw [entriesText_cons]
    cases rest with
    | nil => simp [stringText]
    | cons f rest =>
      simp [moreEntries, stringText] at ih ⊢
      omega

/-- What stands behind a value of an object. -/
theorem terminated_moreEntries (entries : List (String × Json)) (rest : List Char) :
    Terminated (moreEntries false entries ++ '\x7d' :: rest) := by
  cases entries with
  | nil => exact terminated_cons (.inr (.inr rfl)) rest
  | cons e entries => exact terminated_cons (.inl rfl) _

/-- The reader of entries passes over them and stops at the end of the object. -/
theorem entries_of_fills {σ : Type} {entry : String → σ → Option (Reader σ)} {slots last : σ}
    {es : List (String × Json)} (h : Fills entry slots es last) :
    ∀ (room : List Char) (first : Bool) (rest : List Char), es.length < room.length →
      entries entry room first slots (moreEntries first es ++ '\x7d' :: rest) =
        .ok (last, '\x7d' :: rest) := by
  induction h with
  | @nil slots =>
    rintro (_ | ⟨x, room⟩) first rest hroom
    · exact absurd hroom (Nat.not_lt_zero _)
    · have htext : moreEntries first [] ++ '\x7d' :: rest = '\x7d' :: rest := by
        cases first <;> rfl
      rw [htext, entries, Reader.bind_ok (nextEntry_end rest first)]
      rfl
  | @cons slots next last key v es read hentry hread _ ih =>
    rintro (_ | ⟨x, room⟩) first rest hroom
    · exact absurd hroom (Nat.not_lt_zero _)
    · have hroom' : es.length < room.length := Nat.lt_of_succ_lt_succ hroom
      have hnext : nextEntry first (moreEntries first ((key, v) :: es) ++ '\x7d' :: rest) =
          .ok (true, key.toList.flatMap escapedChar ++ '"' :: (':' :: v.text ++
            (moreEntries false es ++ '\x7d' :: rest))) := by
        have htext : entriesText ((key, v) :: es) ++ '\x7d' :: rest =
            '"' :: (key.toList.flatMap escapedChar ++ '"' :: (':' :: v.text ++
              (moreEntries false es ++ '\x7d' :: rest))) := by
          rw [entriesText_cons, List.append_assoc, stringText_append]
          simp
        cases first with
        | true => rw [moreEntries, htext, nextEntry_first]
        | false => rw [moreEntries, List.cons_append, htext, nextEntry_more]
      rw [entries, Reader.bind_ok hnext]
      change (stringBody >>= _) _ = _
      rw [Reader.bind_ok (stringBody_stringText _ _)]
      simp only [hentry]
      rw [Reader.bind_ok (hread _ (terminated_moreEntries es rest))]
      exact ih room false rest hroom'

/-- A record is read as an object with all its fields in order. -/
theorem reads_record {σ α : Type} {expected : String} {empty last : σ}
    {entry : String → σ → Option (Reader σ)} {close : σ → Reader α} {items : Reader α}
    {es : List (String × Json)} {a : α} (h : Fills entry empty es last)
    (hclose : ∀ rest, close last rest = .ok (a, rest)) :
    Reads (record expected empty entry close items) (Json.object es).text a := by
  intro rest _
  have hobject : (do close (← entries entry (← roomFor) true empty) : Reader α)
      (moreEntries true es ++ '\x7d' :: rest) = .ok (a, '\x7d' :: rest) := by
    have hroom : es.length < (' ' :: (moreEntries true es ++ '\x7d' :: rest)).length := by
      have hlength := length_le_entriesText es
      rw [moreEntries, List.length_cons, List.length_append]
      omega
    have hroomFor : roomFor (moreEntries true es ++ '\x7d' :: rest) =
      .ok (' ' :: (moreEntries true es ++ '\x7d' :: rest), _) := rfl
    rw [Reader.bind_ok hroomFor, Reader.bind_ok (entries_of_fills h _ true rest hroom)]
    exact hclose _
  rw [Json.text, List.cons_append, List.append_assoc]
  unfold record
  rw [peek_bind (by decide)]
  change (drop >>= fun _ => _) _ = _
  rw [drop_bind]
  exact (Reader.bind_ok (settle_ok hobject)).trans (Reader.bind_ok endObject_cons)

/-! ## Records of some fields -/

theorem reads_fill {α : Type} {f : Field α} {text : List Char} {a : α}
    (h : Reads f.read text a) : Reads (f.fill none) (':' :: text) (some a) := by
  intro rest hrest
  change (colon >>= fun _ => some <$> f.read) (':' :: (text ++ rest)) = _
  rw [Reader.bind_ok colon_cons, Reader.map_ok (h rest hrest)]

theorem close_some {α : Type} (f : Field α) (a : α) (rest : List Char) :
    f.close (some a) rest = .ok (a, rest) := rfl

theorem reads_record1 {α : Type} {expected : String} {f : Field α} {v : Json} {a : α}
    (hv : Reads f.read v.text a) :
    Reads (record1 expected f) (Json.object [(f.name, v)]).text a := by
  refine reads_record (.cons ?_ (reads_fill hv) .nil) (close_some f a)
  exact if_pos (beq_self_eq_true _)

theorem reads_record2 {α β : Type} {expected : String} {f : Field α} {g : Field β} {v w : Json}
    {a : α} {b : β} (hnames : f.name ≠ g.name) (hv : Reads f.read v.text a)
    (hw : Reads g.read w.text b) :
    Reads (record2 expected f g) (Json.object [(f.name, v), (g.name, w)]).text (a, b) := by
  have hfirst : Reads (do return (← f.fill none, (none : Option β)) : Reader (Option α × Option β))
      (':' :: v.text) (some a, none) := (reads_fill hv).bind fun _ => rfl
  have hsecond : Reads (do return (some a, ← g.fill none) : Reader (Option α × Option β))
      (':' :: w.text) (some a, some b) := (reads_fill hw).bind fun _ => rfl
  refine reads_record (.cons ?_ hfirst (.cons ?_ hsecond .nil)) fun _ => rfl
  · exact if_pos (beq_self_eq_true _)
  · simp [hnames.symm]

theorem reads_record3 {α β γ : Type} {expected : String} {f : Field α} {g : Field β}
    {h : Field γ} {u v w : Json} {a : α} {b : β} {c : γ}
    (hnames : f.name ≠ g.name ∧ f.name ≠ h.name ∧ g.name ≠ h.name)
    (hu : Reads f.read u.text a) (hv : Reads g.read v.text b) (hw : Reads h.read w.text c) :
    Reads (record3 expected f g h) (Json.object [(f.name, u), (g.name, v), (h.name, w)]).text
      (a, b, c) := by
  have hfirst : Reads (do return (← f.fill none, (none : Option β), (none : Option γ)) :
      Reader (Option α × Option β × Option γ)) (':' :: u.text) (some a, none, none) :=
    (reads_fill hu).bind fun _ => rfl
  have hsecond : Reads (do return (some a, ← g.fill none, (none : Option γ)) :
      Reader (Option α × Option β × Option γ)) (':' :: v.text) (some a, some b, none) :=
    (reads_fill hv).bind fun _ => rfl
  have hthird : Reads (do return (some a, some b, ← h.fill none) :
      Reader (Option α × Option β × Option γ)) (':' :: w.text) (some a, some b, some c) :=
    (reads_fill hw).bind fun _ => rfl
  refine reads_record (.cons ?_ hfirst (.cons ?_ hsecond (.cons ?_ hthird .nil))) fun _ => rfl
  · exact if_pos (beq_self_eq_true _)
  · simp [hnames.1.symm]
  · simp [hnames.2.1.symm, hnames.2.2.symm]

theorem opens_object (es : List (String × Json)) : Opens (Json.object es).text :=
  ⟨'\x7b', _, by rw [Json.text], by decide, by decide, by decide⟩

/-! ## Lists -/

/-- The text of further items, the first of them or those behind another. -/
def moreItems : Bool → List Json → List Char
  | true, items => itemsText items
  | false, [] => []
  | false, v :: items => ',' :: itemsText (v :: items)

theorem itemsText_cons (v : Json) (rest : List Json) :
    itemsText (v :: rest) = v.text ++ moreItems false rest := by
  cases rest with
  | nil => rw [itemsText, moreItems, List.append_nil]
  | cons w rest =>
    rw [itemsText, moreItems]
    rintro ⟨⟩

theorem terminated_moreItems (items : List Json) (rest : List Char) :
    Terminated (moreItems false items ++ ']' :: rest) := by
  cases items with
  | nil => exact terminated_cons (.inr (.inl rfl)) rest
  | cons v items => exact terminated_cons (.inl rfl) _

section
variable {α : Type} {read : Reader α} {vs : List Json} {as : List α}

theorem length_le_itemsText
    (h : List.Forall₂ (fun v a => Opens v.text ∧ Reads read v.text a) vs as) :
    vs.length ≤ (itemsText vs).length := by
  induction h with
  | nil => exact Nat.zero_le _
  | @cons v a vs as hv _ ih =>
    obtain ⟨c, more, htext, -⟩ := hv.1
    rw [itemsText_cons, htext]
    cases vs with
    | nil => simp
    | cons w vs =>
      simp [moreItems] at ih ⊢
      omega

/-- The reader of items passes over them and stops at the end of the array. -/
theorem items_of_forall₂
    (h : List.Forall₂ (fun v a => Opens v.text ∧ Reads read v.text a) vs as) :
    ∀ (room : List Char) (first : Bool) (rest : List Char), vs.length < room.length →
      items read room first (moreItems first vs ++ ']' :: rest) = .ok (as, ']' :: rest) := by
  induction h with
  | nil =>
    rintro (_ | ⟨x, room⟩) first rest hroom
    · exact absurd hroom (Nat.not_lt_zero _)
    · have htext : moreItems first [] ++ ']' :: rest = ']' :: rest := by
        cases first <;> rfl
      rw [htext, items, Reader.bind_ok (nextItem_end rest first)]
      rfl
  | @cons v a vs as hv _ ih =>
    rintro (_ | ⟨x, room⟩) first rest hroom
    · exact absurd hroom (Nat.not_lt_zero _)
    · have hroom' : vs.length < room.length := Nat.lt_of_succ_lt_succ hroom
      have hread := hv.2 (moreItems false vs ++ ']' :: rest) (terminated_moreItems vs rest)
      have htext : itemsText (v :: vs) ++ ']' :: rest =
          v.text ++ (moreItems false vs ++ ']' :: rest) := by
        rw [itemsText_cons, List.append_assoc]
      have hnext : nextItem first (moreItems first (v :: vs) ++ ']' :: rest) =
          .ok (true, v.text ++ (moreItems false vs ++ ']' :: rest)) := by
        obtain ⟨c, more, hopen, hspace, hend, -⟩ :=
          hv.1.append (moreItems false vs ++ ']' :: rest)
        cases first with
        | true => rw [moreItems, htext, hopen, nextItem_first hspace hend]
        | false => rw [moreItems, List.cons_append, htext, hopen, nextItem_more hspace hend]
      rw [items, Reader.bind_ok hnext]
      change (read >>= _) _ = _
      rw [Reader.bind_ok hread, Reader.bind_ok (ih room false rest hroom')]
      rfl

theorem reads_listOf
    (h : List.Forall₂ (fun v a => Opens v.text ∧ Reads read v.text a) vs as) :
    Reads (listOf read) (Json.array vs).text as := by
  intro rest _
  have hitems : (do items read (← roomFor) true : Reader (List α))
      (moreItems true vs ++ ']' :: rest) = .ok (as, ']' :: rest) := by
    have hroom : vs.length < (' ' :: (moreItems true vs ++ ']' :: rest)).length := by
      have hlength := length_le_itemsText h
      rw [moreItems, List.length_cons, List.length_append]
      omega
    have hroomFor : roomFor (moreItems true vs ++ ']' :: rest) =
      .ok (' ' :: (moreItems true vs ++ ']' :: rest), _) := rfl
    rw [Reader.bind_ok hroomFor]
    exact items_of_forall₂ h _ true rest hroom
  rw [Json.text, List.cons_append, List.append_assoc]
  unfold listOf
  rw [peek_bind (by decide)]
  change (drop >>= fun _ => _) _ = _
  rw [drop_bind]
  exact (Reader.bind_ok (settle_ok hitems)).trans (Reader.bind_ok endArray_cons)

/-! ## Variants -/

variable {variants : List (Variant α)} {variant : Variant α} {tag : String} {v : Json} {a : α}

theorem knownVariant_of_find? (h : variants.find? (fun w => w.tag == tag) = some variant)
    (rest : List Char) : knownVariant variants tag rest = .ok (variant, rest) := by
  unfold knownVariant
  rw [h]
  rfl

/-- A variant that stands in an object. -/
theorem reads_tagged (h : variants.find? (fun w => w.tag == tag) = some variant)
    (hread : Reads variant.readTagged v.text a) : Reads (variantOf variants) (tagged tag v).text a := by
  intro rest _
  have htext : (tagged tag v).text ++ rest = '\x7b' :: '"' :: (tag.toList.flatMap escapedChar ++
      '"' :: ':' :: (v.text ++ '\x7d' :: rest)) := by
    rw [tagged, Json.text, entriesText, List.cons_append, List.append_assoc, List.append_assoc,
      stringText_append]
    simp
  have hquote (more : List Char) :
      (discard (keyQuote (some '"')) : Reader Unit) ('"' :: more) = .ok ((), more) := rfl
  have hvalue := hread ('\x7d' :: rest) (terminated_cons (.inr (.inr rfl)) rest)
  rw [htext]
  unfold variantOf oneVariant
  rw [peek_bind (by decide)]
  change taggedValue variants _ = _
  unfold taggedValue
  rw [drop_bind, peek_bind (by decide), Reader.bind_ok (hquote _),
    Reader.bind_ok (stringBody_stringText _ _), Reader.bind_ok (knownVariant_of_find? h _),
    Reader.bind_ok colon_cons, Reader.bind_ok hvalue, peek_bind (by decide)]
  rfl

/-- A variant whose tag stands alone, also where no level is left. -/
theorem reads_bare (h : variants.find? (fun w => w.tag == tag) = some (.bare tag a))
    (inObject : Reader α) : Reads (oneVariant variants inObject) (Json.string tag).text a := by
  intro rest _
  rw [Json.text, stringText_append]
  unfold oneVariant
  rw [peek_bind (by decide)]
  change (drop >>= fun _ => stringBody >>= _) _ = _
  rw [drop_bind, Reader.bind_ok (stringBody_stringText _ _),
    Reader.bind_ok (knownVariant_of_find? h _)]
  rfl

end

end PegCompiler.Json
