import Mathlib.Data.Finset.Card
import TypeCalculus.NameTable

/-!
Names and texts are in bijection, whatever is interned and however texts are spread over shards. A
table is described by the set of texts it holds: interning adds a text to that set and keeps all
names that were given before.
-/

namespace TypeCalculus

section Shards

variable {spread : Spread} {texts texts' : Finset String} {text : String}

/-- Those of the texts that go to one shard. -/
def Spread.part (spread : Spread) (texts : Finset String) (shard : Fin Name.shards) :
    Finset String := texts.filter fun text => spread.shardOf text = shard

/-- No shard receives more texts than it has slots. -/
def Spread.Fits (spread : Spread) (texts : Finset String) : Prop :=
  ∀ shard, (spread.part texts shard).card ≤ Name.slots

theorem Spread.mem_part {shard : Fin Name.shards} :
    text ∈ spread.part texts shard ↔ text ∈ texts ∧ spread.shardOf text = shard :=
  Finset.mem_filter

theorem Spread.part_insert_self (spread : Spread) (texts : Finset String) (text : String) :
    spread.part (insert text texts) (spread.shardOf text) =
      insert text (spread.part texts (spread.shardOf text)) := by
  rw [part, part, Finset.filter_insert, if_pos rfl]

theorem Spread.part_insert_of_ne {shard : Fin Name.shards} (h : spread.shardOf text ≠ shard) :
    spread.part (insert text texts) shard = spread.part texts shard := by
  rw [part, part, Finset.filter_insert, if_neg h]

theorem Spread.Fits.mono (h : spread.Fits texts') (hsub : texts ⊆ texts') : spread.Fits texts :=
  fun shard => (Finset.card_le_card (Finset.filter_subset_filter _ hsub)).trans (h shard)

theorem Spread.fits_of_card_le (spread : Spread) (h : texts.card ≤ Name.slots) :
    spread.Fits texts := fun _ => (Finset.card_filter_le _ _).trans h

namespace NameTable

/-- The shard holds these texts: each of them has a slot, and its two tables are inverse to each
other. -/
structure Shard.Holds (s : Shard) (texts : Finset String) : Prop where
  mem_iff : ∀ text, text ∈ texts ↔ ∃ slot, s.find? text = some slot
  inverse : ∀ text slot, s.find? text = some slot ↔ s.texts[slot.val]? = some text
  size : s.texts.size = texts.card

theorem Shard.empty_holds : Shard.empty.Holds ∅ where
  mem_iff text := by simp [empty, find?]
  inverse text slot := by simp [empty, find?]
  size := rfl

/-- A text that is new to a shard with a free slot gets that slot, and the others keep theirs. -/
theorem Shard.Holds.push {s : Shard} (h : s.Holds texts) (hnew : text ∉ texts)
    (hroom : texts.card < Name.slots) (shard : Nat) :
    ∃ slot s', s.push shard text = .ok (slot, s') ∧ s'.Holds (insert text texts) ∧
      ∀ other, s'.find? other = if text = other then some slot else s.find? other := by
  have hsize : s.texts.size < Name.slots := by
    rw [h.size]
    exact hroom
  have hfree : ∀ slot : Fin Name.slots, s.texts[slot.val]? ≠ some text := by
    intro slot hslot
    have hfound : s.find? text = some slot := (h.inverse text slot).2 hslot
    exact hnew ((h.mem_iff text).2 ⟨slot, hfound⟩)
  have hfind : ∀ other, (s.index.insert text ⟨s.texts.size, hsize⟩)[other]? =
      if text = other then some ⟨s.texts.size, hsize⟩ else s.find? other := by
    intro other
    simp [Std.TreeMap.getElem?_insert, find?]
  refine ⟨⟨s.texts.size, hsize⟩, ⟨s.index.insert text ⟨s.texts.size, hsize⟩, s.texts.push text⟩,
    dif_pos hsize, ⟨?_, ?_, ?_⟩, hfind⟩
  · intro other
    rw [find?, hfind, Finset.mem_insert, h.mem_iff]
    by_cases heq : text = other
    · simp [heq]
    · simp [heq, Ne.symm heq]
  · intro other slot
    rw [find?, hfind, Array.getElem?_push]
    by_cases heq : text = other
    · subst heq
      by_cases hslot : slot.val = s.texts.size
      · simp [hslot, Fin.ext_iff]
      · simp [hslot, hfree slot, Fin.ext_iff, Ne.symm hslot]
    · rw [if_neg heq, h.inverse]
      by_cases hslot : slot.val = s.texts.size
      · simp [hslot, heq]
      · simp [hslot]
  · rw [Array.size_push, h.size, Finset.card_insert_of_notMem hnew]

end NameTable

end Shards

namespace NameTable

variable {t t' : NameTable} {texts : Finset String} {text : String} {n : Name}

/-- The table holds these texts, each of them in its shard. -/
structure Holds (t : NameTable) (texts : Finset String) : Prop where
  shard : ∀ shard : Fin Name.shards, (t.shards.get shard).Holds (t.spread.part texts shard)
  size : t.size = texts.card

/-- The second table gives all the names that the first one gives. -/
structure Extends (t t' : NameTable) : Prop where
  spread : t'.spread = t.spread
  names : ∀ text n, t.get? text = some n → t'.get? text = some n

theorem Extends.refl (t : NameTable) : t.Extends t := ⟨rfl, fun _ _ h => h⟩

theorem Extends.trans {t'' : NameTable} (h : t.Extends t') (h' : t'.Extends t'') :
    t.Extends t'' :=
  ⟨h'.spread.trans h.spread, fun text n hn => h'.names text n (h.names text n hn)⟩

theorem get?_eq_some_iff : t.get? text = some n ↔
    t.spread.shardOf text = n.shard ∧ (t.shards.get n.shard).find? text = some n.slot := by
  simp only [get?, Option.map_eq_some_iff]
  constructor
  · rintro ⟨slot, hslot, rfl⟩
    exact ⟨rfl, hslot⟩
  · obtain ⟨shard, slot⟩ := n
    rintro ⟨rfl, hslot⟩
    exact ⟨slot, hslot, rfl⟩

theorem intern_of_get? (h : t.get? text = some n) : t.intern text = .ok (n, t) := by
  obtain ⟨shard, slot⟩ := n
  obtain ⟨rfl, hslot⟩ := get?_eq_some_iff.1 h
  simp only [intern, hslot]

theorem get_shards_put (t : NameTable) (shard shard' : Fin Name.shards) (held : Shard) :
    (t.put shard held).shards.get shard' =
      if shard = shard' then held else t.shards.get shard' := by
  change (t.shards.set shard held)[shard'.val] = _
  rw [Vector.getElem_set]
  exact if_congr Fin.ext_iff.symm rfl rfl

/-- A shard that differs from the one it replaces only in having `text` gives one name more. -/
theorem get?_put {held : Shard} {slot : Fin Name.slots}
    (hfind : ∀ other, held.find? other =
      if text = other then some slot else (t.shards.get (t.spread.shardOf text)).find? other)
    (other : String) :
    (t.put (t.spread.shardOf text) held).get? other =
      if text = other then some ⟨t.spread.shardOf text, slot⟩ else t.get? other := by
  have hspread : (t.put (t.spread.shardOf text) held).spread = t.spread := rfl
  have hheld : (if t.spread.shardOf text = t.spread.shardOf other then held
      else t.shards.get (t.spread.shardOf other)).find? other =
        if text = other then some slot
        else (t.shards.get (t.spread.shardOf other)).find? other := by
    split
    · rename_i hshard
      simp only [hfind, hshard]
    · rename_i hshard
      have hother : text ≠ other := fun heq => hshard (by rw [heq])
      rw [if_neg hother]
  simp only [get?, hspread, get_shards_put, hheld]
  by_cases heq : text = other
  · simp [heq]
  · simp [heq]

namespace Holds

theorem get?_iff_text? (h : t.Holds texts) : t.get? text = some n ↔ t.text? n = some text := by
  have hinverse := (h.shard n.shard).inverse text n.slot
  rw [get?_eq_some_iff, hinverse]
  constructor
  · exact fun hboth => hboth.2
  · intro htext
    -- What stands in a shard was put there because it belongs there.
    have hfound := hinverse.2 htext
    have hpart := ((h.shard n.shard).mem_iff text).2 ⟨n.slot, hfound⟩
    exact ⟨(Spread.mem_part.1 hpart).2, htext⟩

theorem mem_iff (h : t.Holds texts) : text ∈ texts ↔ ∃ n, t.get? text = some n := by
  have hshard := (h.shard (t.spread.shardOf text)).mem_iff text
  have hpart : text ∈ t.spread.part texts (t.spread.shardOf text) ↔ text ∈ texts := by
    simp [Spread.mem_part]
  rw [← hpart, hshard]
  constructor
  · rintro ⟨slot, hslot⟩
    exact ⟨⟨_, slot⟩, get?_eq_some_iff.2 ⟨rfl, hslot⟩⟩
  · rintro ⟨⟨shard, slot⟩, hn⟩
    obtain ⟨rfl, hslot⟩ := get?_eq_some_iff.1 hn
    exact ⟨slot, hslot⟩

theorem find?_eq_none (h : t.Holds texts) (hnew : text ∉ texts) :
    (t.shards.get (t.spread.shardOf text)).find? text = none := by
  rw [Option.eq_none_iff_forall_ne_some]
  intro slot hslot
  exact hnew (h.mem_iff.2 ⟨⟨_, slot⟩, get?_eq_some_iff.2 ⟨rfl, hslot⟩⟩)

theorem put (h : t.Holds texts) (hnew : text ∉ texts) {held : Shard}
    (hheld : held.Holds (insert text (t.spread.part texts (t.spread.shardOf text)))) :
    (t.put (t.spread.shardOf text) held).Holds (insert text texts) where
  shard shard := by
    rw [get_shards_put]
    change Shard.Holds _ (t.spread.part _ _)
    split
    · rename_i heq
      subst heq
      rw [Spread.part_insert_self]
      exact hheld
    · rename_i hne
      rw [Spread.part_insert_of_ne hne]
      exact h.shard shard
  size := by
    rw [Finset.card_insert_of_notMem hnew, ← h.size]
    rfl

/-- Where its shard has room, a text gets a name, and the names of other texts stay as they are. -/
theorem intern (h : t.Holds texts) (hfits : t.spread.Fits (insert text texts)) :
    ∃ n t', t.intern text = .ok (n, t') ∧ t'.Holds (insert text texts) ∧ t'.spread = t.spread ∧
      ∀ other, t'.get? other = if text = other then some n else t.get? other := by
  by_cases hmem : text ∈ texts
  · obtain ⟨n, hn⟩ := h.mem_iff.1 hmem
    refine ⟨n, t, intern_of_get? hn, ?_, rfl, fun other => ?_⟩
    · rwa [Finset.insert_eq_of_mem hmem]
    · by_cases heq : text = other
      · rw [if_pos heq, ← heq, hn]
      · rw [if_neg heq]
  · have hnew : text ∉ t.spread.part texts (t.spread.shardOf text) := fun hpart =>
      hmem (Spread.mem_part.1 hpart).1
    have hroom : (t.spread.part texts (t.spread.shardOf text)).card < Name.slots := by
      have hle := hfits (t.spread.shardOf text)
      rw [Spread.part_insert_self, Finset.card_insert_of_notMem hnew] at hle
      exact hle
    obtain ⟨slot, held, hpush, hheld, hfind⟩ :=
      (h.shard (t.spread.shardOf text)).push hnew hroom (t.spread.shardOf text)
    refine ⟨⟨t.spread.shardOf text, slot⟩, t.put (t.spread.shardOf text) held, ?_,
      h.put hmem hheld, rfl, get?_put hfind⟩
    simp only [NameTable.intern, h.find?_eq_none hmem, hpush]

theorem extends_intern (h : t.Holds texts) (hfits : t.spread.Fits (insert text texts))
    (hintern : t.intern text = .ok (n, t')) : t.Extends t' ∧ t'.get? text = some n := by
  obtain ⟨m, t'', hintern', -, hspread, hget⟩ := h.intern hfits
  rw [hintern'] at hintern
  cases hintern
  refine ⟨⟨hspread, fun other k hk => ?_⟩, ?_⟩
  · rw [hget]
    split
    · rename_i heq
      subst heq
      rw [intern_of_get? hk] at hintern'
      cases hintern'
      rfl
    · exact hk
  · rw [hget, if_pos rfl]

theorem addAll (h : t.Holds texts) (more : List String)
    (hfits : t.spread.Fits (texts ∪ more.toFinset)) :
    (t.addAll more).Holds (texts ∪ more.toFinset) ∧ t.Extends (t.addAll more) := by
  induction more generalizing t texts with
  | nil =>
    rw [List.toFinset_nil, Finset.union_empty]
    exact ⟨h, .refl t⟩
  | cons text more ih =>
    rw [List.toFinset_cons, Finset.union_insert, ← Finset.insert_union] at hfits ⊢
    have hfirst : t.spread.Fits (insert text texts) := hfits.mono Finset.subset_union_left
    obtain ⟨n, t', hintern, hheld, hspread, -⟩ := h.intern hfirst
    obtain ⟨hall, hextends⟩ := ih hheld (hspread ▸ hfits)
    simp only [NameTable.addAll, hintern]
    exact ⟨hall, (h.extends_intern hfirst hintern).1.trans hextends⟩

theorem text?_injective (h : t.Holds texts) {n' : Name} (hn : t.text? n = some text)
    (hn' : t.text? n' = some text) : n = n' := by
  rw [← h.get?_iff_text?] at hn hn'
  exact Option.some.inj (hn.symm.trans hn')

/-- A text that was given a name found room in its shard. -/
theorem fits_of_intern (h : t.Holds texts) (hfits : t.spread.Fits texts)
    (hintern : t.intern text = .ok (n, t')) : t.spread.Fits (insert text texts) := by
  by_cases hmem : text ∈ texts
  · rwa [Finset.insert_eq_of_mem hmem]
  have hroom : (t.spread.part texts (t.spread.shardOf text)).card < Name.slots := by
    rw [← (h.shard _).size]
    by_contra hfull
    simp only [NameTable.intern, h.find?_eq_none hmem, Shard.push, dif_neg hfull] at hintern
    cases hintern
  intro shard
  by_cases hshard : t.spread.shardOf text = shard
  · subst hshard
    rw [Spread.part_insert_self]
    exact (Finset.card_insert_le _ _).trans hroom
  · rw [Spread.part_insert_of_ne hshard]
    exact hfits shard

/-- Whatever is interned, a table keeps holding texts, each of them in its shard. -/
theorem exists_addAll (h : t.Holds texts) (hfits : t.spread.Fits texts) (more : List String) :
    ∃ held, (t.addAll more).Holds held := by
  induction more generalizing t texts with
  | nil => exact ⟨texts, h⟩
  | cons text more ih =>
    rw [NameTable.addAll]
    cases hintern : t.intern text with
    | error e => exact ih h hfits
    | ok result =>
      have hfits' := h.fits_of_intern hfits hintern
      obtain ⟨n, t', hintern', hheld, hspread, -⟩ := h.intern hfits'
      cases hintern.symm.trans hintern'
      exact ih hheld (hspread ▸ hfits')

end Holds

/-! ### New tables -/

/-- The texts of a new table. -/
def initial : Finset String := ("" :: Operator.vocabulary.map (·.spelling)).toFinset

theorem mem_initial : text ∈ initial ↔ text = "" ∨ ∃ op : Operator, op.spelling = text := by
  simp [initial, Operator.mem_vocabulary]

theorem get_shards_blank (spread : Spread) (shard : Fin Name.shards) :
    (blank spread).shards.get shard = .empty := Vector.getElem_replicate shard.isLt

theorem blank_holds (spread : Spread) : (blank spread).Holds ∅ where
  shard shard := by
    rw [get_shards_blank, Spread.part, Finset.filter_empty]
    exact Shard.empty_holds
  size := rfl

/-- The empty text finds no other text in its shard, even where that shard serves other texts. -/
theorem blank_intern_empty (spread : Spread) :
    ∃ t, (blank spread).intern "" = .ok (.empty, t) := by
  have hnone : Shard.empty.find? "" = none := by simp [Shard.empty, Shard.find?]
  have hfirst : (blank spread).spread.shardOf "" = 0 := spread.shardOf_empty
  simp only [intern, hfirst, get_shards_blank, hnone]
  exact ⟨_, rfl⟩

theorem initial_fits (spread : Spread) : spread.Fits initial := by
  apply spread.fits_of_card_le
  exact (List.toFinset_card_le _).trans (by decide)

theorem new_holds (spread : Spread) :
    (new spread).Holds initial ∧ (new spread).spread = spread := by
  have hfits : spread.Fits (∅ ∪ initial) := by simpa using initial_fits spread
  obtain ⟨hheld, hextends⟩ := (blank_holds spread).addAll _ hfits
  rw [Finset.empty_union] at hheld
  exact ⟨hheld, hextends.spread⟩

theorem exists_new_addAll_holds (spread : Spread) (texts : List String) :
    ∃ held, ((new spread).addAll texts).Holds held := by
  obtain ⟨hheld, hspread⟩ := new_holds spread
  exact hheld.exists_addAll (hspread.symm ▸ initial_fits spread) texts

theorem new_get?_empty (spread : Spread) : (new spread).get? "" = some .empty := by
  obtain ⟨t, hintern⟩ := blank_intern_empty spread
  have hfits : spread.Fits (insert "" ∅) := spread.fits_of_card_le (by decide)
  obtain ⟨n, t', hintern', hheld, hspread, -⟩ := (blank_holds spread).intern hfits
  rw [hintern] at hintern'
  cases hintern'
  have hrest : t.spread.Fits
      (insert "" ∅ ∪ (Operator.vocabulary.map (·.spelling)).toFinset) := by
    rw [hspread]
    refine (initial_fits spread).mono ?_
    simp [initial]
  have hextends := (hheld.addAll _ hrest).2
  have hget := ((blank_holds spread).extends_intern hfits hintern).2
  have hnew : new spread = t.addAll (Operator.vocabulary.map (·.spelling)) := by
    simp only [new, NameTable.addAll, hintern]
  rw [hnew]
  exact hextends.names "" _ hget

/-! ### Runs -/

inductive Call where
  | intern (text : String)
  | get (text : String)

def answer (t : NameTable) : Call → Except ShardFull (Option Name × NameTable)
  | .intern text => (t.intern text).map fun result => (some result.1, result.2)
  | .get text => .ok (t.get? text, t)

/-- The answers to the calls in turn, and the table after them. -/
def run (t : NameTable) : List Call → Except ShardFull (List (Option Name) × NameTable)
  | [] => .ok ([], t)
  | call :: calls =>
    match t.answer call with
    | .error e => .error e
    | .ok (first, t') => (t'.run calls).map fun result => (first :: result.1, result.2)

/-- The texts that the calls put into the table. -/
def received : List Call → Finset String
  | [] => ∅
  | .intern text :: calls => insert text (received calls)
  | .get _ :: calls => received calls

theorem mem_received {calls : List Call} : text ∈ received calls ↔ .intern text ∈ calls := by
  induction calls with
  | nil => simp [received]
  | cons call calls ih =>
    cases call with
    | intern other => simp [received, ih]
    | get other => simp [received, ih]

/-- The answers to calls on a table that holds `held`, where `nameOf` names the texts once and for
all: interning gives the name, and looking up gives it to those texts that are held by then. -/
def expected (nameOf : String → Option Name) (held : Finset String) :
    List Call → List (Option Name)
  | [] => []
  | .intern text :: calls => nameOf text :: expected nameOf (insert text held) calls
  | .get text :: calls =>
    (if text ∈ held then nameOf text else none) :: expected nameOf held calls

theorem Holds.run (h : t.Holds texts) (calls : List Call)
    (hfits : t.spread.Fits (texts ∪ received calls)) :
    ∃ t', t.run calls = .ok (expected t'.get? texts calls, t') ∧
      t'.Holds (texts ∪ received calls) ∧ t.Extends t' := by
  induction calls generalizing t texts with
  | nil => exact ⟨t, rfl, by simpa [received] using h, .refl t⟩
  | cons call calls ih =>
    cases call with
    | intern text =>
      rw [received, Finset.union_insert, ← Finset.insert_union] at hfits ⊢
      have hfirst : t.spread.Fits (insert text texts) := hfits.mono Finset.subset_union_left
      obtain ⟨n, t', hintern, hheld, hspread, -⟩ := h.intern hfirst
      obtain ⟨hextends, hget⟩ := h.extends_intern hfirst hintern
      obtain ⟨last, hrun, hall, hlast⟩ := ih hheld (hspread ▸ hfits)
      refine ⟨last, ?_, hall, hextends.trans hlast⟩
      have hname : last.get? text = some n := hlast.names text n hget
      simp [NameTable.run, answer, hintern, hrun, expected, hname, Except.map]
    | get text =>
      obtain ⟨last, hrun, hall, hlast⟩ := ih h hfits
      refine ⟨last, ?_, hall, hlast⟩
      have hname : t.get? text = if text ∈ texts then last.get? text else none := by
        by_cases hmem : text ∈ texts
        · obtain ⟨n, hn⟩ := h.mem_iff.1 hmem
          rw [if_pos hmem, hn, hlast.names text n hn]
        · rw [if_neg hmem, Option.eq_none_iff_forall_ne_some]
          intro n hn
          exact hmem (h.mem_iff.2 ⟨n, hn⟩)
      simp [NameTable.run, answer, hrun, expected, hname, Except.map]

/-- The names of the table are in bijection with the texts it holds, also by their numbers, and a
text that is held is not put in again. -/
structure Faithful (t : NameTable) (held : Finset String) : Prop where
  held_iff : ∀ text, text ∈ held ↔ ∃ n, t.get? text = some n
  again : ∀ text n, t.get? text = some n → t.intern text = .ok (n, t)
  text?_iff : ∀ text n, t.text? (.ofRaw n.raw) = some text ↔ t.get? text = some n
  empty_iff : ∀ text, t.get? text = some .empty ↔ text = ""
  intern_eq_iff : ∀ text text', t.spread.Fits (insert text' (insert text held)) →
    ∃ n n' t₁ t₂, t.intern text = .ok (n, t₁) ∧ t₁.intern text' = .ok (n', t₂) ∧
      (n.raw = n'.raw ↔ text = text')
  size : t.size = held.card

theorem Holds.get?_injective (h : t.Holds texts) {text' : String}
    (hget : t.get? text = some n) (hget' : t.get? text' = some n) : text = text' := by
  rw [h.get?_iff_text?] at hget hget'
  exact Option.some.inj (hget.symm.trans hget')

theorem Holds.faithful (h : t.Holds texts) (hempty : t.get? "" = some .empty) :
    t.Faithful texts where
  held_iff _ := h.mem_iff
  again _ _ := intern_of_get?
  text?_iff text n := by rw [Name.ofRaw_raw, h.get?_iff_text?]
  empty_iff text := by
    constructor
    · exact fun hget => h.get?_injective hget hempty
    · rintro rfl
      exact hempty
  intern_eq_iff text text' hfits := by
    have hfirst : t.spread.Fits (insert text texts) := hfits.mono (Finset.subset_insert ..)
    obtain ⟨n, t₁, hintern, hheld, hspread, -⟩ := h.intern hfirst
    rw [← hspread] at hfits
    obtain ⟨n', t₂, hintern', hheld', -, -⟩ := hheld.intern hfits
    refine ⟨n, n', t₁, t₂, hintern, hintern', ?_⟩
    obtain ⟨hextends, hget'⟩ := hheld.extends_intern hfits hintern'
    have hget : t₂.get? text = some n :=
      hextends.names text n (h.extends_intern hfirst hintern).2
    constructor
    · intro hraw
      obtain rfl := Name.raw_injective hraw
      exact hheld'.get?_injective hget hget'
    · rintro rfl
      rw [hget] at hget'
      rw [Option.some.inj hget']
  size := h.size

/-- Whatever is interned and looked up in a new table, and however texts are spread over shards that
have room for them, the answers agree with one bijection between names and texts. The texts that
have names are the empty one, the spellings of operators, and those that were interned so far. -/
theorem run_bijective (spread : Spread) (calls : List Call)
    (hfits : spread.Fits (initial ∪ received calls)) :
    ∃ t, (new spread).run calls = .ok (expected t.get? initial calls, t) ∧
      t.Faithful (initial ∪ received calls) ∧
      ∀ text, (∃ n, t.get? text = some n) ↔
        text = "" ∨ (∃ op : Operator, op.spelling = text) ∨ .intern text ∈ calls := by
  obtain ⟨hnew, hspread⟩ := new_holds spread
  obtain ⟨t, hrun, hheld, hextends⟩ := hnew.run calls (by rwa [hspread])
  have hempty : t.get? "" = some .empty := hextends.names "" _ (new_get?_empty spread)
  refine ⟨t, hrun, hheld.faithful hempty, fun text => ?_⟩
  rw [← hheld.mem_iff, Finset.mem_union, mem_initial, mem_received, or_assoc]

/-- All texts may go to the shard of the empty text. -/
theorem run_bijective_of_one_shard :
    Spread.Fits ⟨fun _ => 0, rfl⟩
      (initial ∪ received [.intern "x", .get "y", .intern "x", .get "x"]) ∧
    ∃ t, (new ⟨fun _ => 0, rfl⟩).run [.intern "x", .get "y", .intern "x", .get "x"] =
      .ok ([t.get? "x", none, t.get? "x", t.get? "x"], t) ∧ t.Faithful (initial ∪ {"x"}) := by
  have hfits : Spread.Fits ⟨fun _ => 0, rfl⟩
      (initial ∪ received [.intern "x", .get "y", .intern "x", .get "x"]) := by
    apply Spread.fits_of_card_le
    calc _ ≤ initial.card + _ := Finset.card_union_le _ _
      _ ≤ 14 + 1 := Nat.add_le_add (List.toFinset_card_le _) (by decide)
      _ ≤ Name.slots := by decide
  refine ⟨hfits, ?_⟩
  obtain ⟨t, hrun, hfaithful, -⟩ := run_bijective _ _ hfits
  refine ⟨t, ?_, hfaithful⟩
  have hy : "y" ∉ insert "x" initial := by decide
  simpa [expected, hy] using hrun

end NameTable

end TypeCalculus
