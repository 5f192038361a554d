import TypeCalculus.Proofs.Names
import TypeCalculus.Proofs.Store.Reading
import TypeCalculus.Store.Text

/-!
The written form of types. Writing behind a buffer adds the text of the type to it. As long as the
names of nominal types are told apart from `None` and from the signs in between, the text of a type
tells where it ends and which type it is.
-/

namespace TypeCalculus

section Buffer

variable {α : Type} {separator : String} {write : String → α → Except Fault String} {as : List α}

/-- What is written behind a buffer does not depend on the buffer. -/
def Appends (write : String → α → Except Fault String) (a : α) : Prop :=
  ∀ buffer, write buffer a = (buffer ++ ·) <$> write "" a

theorem writeSeparated_eq (h : ∀ a ∈ as, Appends write a) (buffer : String) :
    writeSeparated separator write buffer as =
      (buffer ++ separator.intercalate ·) <$> as.mapM (write "") := by
  induction as generalizing buffer with
  | nil =>
    simp only [writeSeparated, List.mapM_nil, map_pure, String.intercalate_nil, String.append_empty]
    rfl
  | cons a as ih =>
    have hfirst := h a List.mem_cons_self buffer
    have hrest := ih fun b hb => h b (List.mem_cons_of_mem _ hb)
    cases as with
    | nil => simp [writeSeparated, hfirst, List.mapM_cons]
    | cons b bs =>
      have hstep : writeSeparated separator write buffer (a :: b :: bs) =
          write buffer a >>= fun text => writeSeparated separator write (text ++ separator) (b :: bs) :=
        rfl
      rw [hstep, hfirst, bind_map_left]
      simp only [hrest, List.mapM_cons, map_bind, bind_assoc, pure_bind, map_pure,
        String.intercalate_cons_cons, String.append_assoc]

end Buffer

namespace Shape

/-- The text of a shape, given the texts of its parts. -/
def textBy (names : NameTable) (text : TypeId → Except Fault String) : Shape → Except Fault String
  | unknown => return "?"
  | all => return "*"
  | empty => return "None"
  | named name =>
    match names.text? name with
    | some text => return text
    | none => throw (.foreignName name)
  | union members => return "(" ++ "|".intercalate (← members.mapM text) ++ ")"
  | applied base args => return (← text base) ++ "<" ++ ", ".intercalate (← args.mapM text) ++ ">"

theorem textBy_congr {shape : Shape} {names : NameTable} {text text' : TypeId → Except Fault String}
    (h : ∀ part ∈ shape.parts, text part = text' part) :
    shape.textBy names text = shape.textBy names text' := by
  cases shape with
  | unknown | all | empty | named => rfl
  | union members =>
    have hm : members.mapM text = members.mapM text' := mapM_congr_of_mem h
    simp only [textBy, hm]
  | applied base args =>
    have hb : text base = text' base := h base List.mem_cons_self
    have ha : args.mapM text = args.mapM text' :=
      mapM_congr_of_mem fun a ha => h a (List.mem_cons_of_mem _ ha)
    simp only [textBy, hb, ha]

end Shape

namespace Store

variable {s : Store} {names : NameTable} {t : TypeId}

theorem writeWithin_succ {fuel : Nat} (h : ∀ t, Appends (s.writeWithin names fuel) t)
    (buffer : String) (t : TypeId) : s.writeWithin names (fuel + 1) buffer t =
      (buffer ++ ·) <$> (s.shape t >>= Shape.textBy names (s.writeWithin names fuel "")) := by
  have hseparated (separator buffer : String) (ts : List TypeId) :
      writeSeparated separator (s.writeWithin names fuel) buffer ts =
        (buffer ++ separator.intercalate ·) <$> ts.mapM (s.writeWithin names fuel "") :=
    writeSeparated_eq (fun t _ => h t) buffer
  rw [writeWithin]
  cases s.shape t with
  | error f => rfl
  | ok shape =>
    simp only [ok_bind]
    cases shape with
    | unknown | all | empty => rfl
    | named name =>
      simp only [Shape.textBy]
      cases names.text? name <;> rfl
    | union members =>
      simp only [hseparated, Shape.textBy, bind_map_left, map_bind, map_pure, String.append_assoc]
    | applied base args =>
      simp only [h base buffer, hseparated, Shape.textBy, bind_map_left, map_bind, map_pure,
        String.append_assoc]

theorem writeWithin_appends (s : Store) (names : NameTable) (fuel : Nat) (t : TypeId) :
    Appends (s.writeWithin names fuel) t := by
  induction fuel generalizing t with
  | zero => exact fun buffer => rfl
  | succ fuel ih =>
    intro buffer
    simp only [writeWithin_succ ih, Functor.map_map, String.empty_append]

/-- A type is written behind a buffer by adding its text. -/
theorem write_eq (s : Store) (names : NameTable) (buffer : String) (t : TypeId) :
    s.write names buffer t = (buffer ++ ·) <$> s.text names t :=
  s.writeWithin_appends names (t.index + 1) t buffer

namespace WellFormed

theorem writeWithin_eq (h : s.WellFormed) (t : TypeId) {fuel : Nat} (hf : t.index < fuel) :
    s.writeWithin names fuel "" t = s.text names t := by
  induction t using h.induction generalizing fuel with
  | step t ih =>
    obtain ⟨fuel, rfl⟩ := Nat.exists_eq_add_of_lt hf
    unfold text write
    rw [writeWithin_succ fun t => s.writeWithin_appends names _ t,
      writeWithin_succ fun t => s.writeWithin_appends names _ t]
    cases hs : s.shape t with
    | error f => rfl
    | ok shape =>
      refine congrArg _ (Shape.textBy_congr fun part hp => ?_)
      -- The parts are written with as much fuel as is left, and by themselves with what they need.
      have hlt : part.index < t.index := h.parts_lt hs part hp
      have hmore := ih shape hs part hp (Nat.lt_add_right fuel hlt)
      have hjust := ih shape hs part hp hlt
      exact hmore.trans hjust.symm

theorem text_eq (h : s.WellFormed) (names : NameTable) (t : TypeId) :
    s.text names t = s.shape t >>= Shape.textBy names (s.text names) := by
  unfold text write
  rw [writeWithin_succ fun t => s.writeWithin_appends names _ t]
  cases hs : s.shape t with
  | error f => rfl
  | ok shape =>
    simp only [ok_bind, String.empty_append, id_map']
    exact Shape.textBy_congr fun part hp => h.writeWithin_eq part (h.parts_lt hs part hp)

end WellFormed

end Store

/-- The signs that stand in texts beside names. -/
def signs : List Char := ['?', '*', '(', ')', '|', '<', '>', ',', ' ']

/-- The text of a name, told apart from everything that is not one. -/
structure PlainText (text : String) : Prop where
  ne_empty : text ≠ ""
  ne_none : text ≠ "None"
  no_sign : ∀ c ∈ text.toList, c ∉ signs

/-- The signs behind a part of a type. -/
def closers : List Char := ['|', ')', '>', ',']

theorem mem_signs_of_mem_closers {c : Char} (h : c ∈ closers) : c ∈ signs := by
  have hsub : closers ⊆ signs := by decide
  exact hsub h

/-- What can stand behind the text of a type: nothing, or one of the signs behind a part. -/
def Delimited (r : List Char) : Prop := ∀ c ∈ r.head?, c ∈ closers

/-- A text that `R` gives the element is given to no other one, and with something behind it the text
still ends in one place only. -/
def Cancels {α : Type} (R : α → List Char → Prop) (a : α) : Prop :=
  ∀ b w v r r', R a w → R b v → Delimited r → Delimited r' → w ++ r = v ++ r' → a = b ∧ r = r'

theorem delimited_cons {c : Char} {r : List Char} : Delimited (c :: r) ↔ c ∈ closers := by
  simp [Delimited]

/-- A word is the longest beginning of its kind, so it does not depend on how the whole is divided. -/
theorem append_cancel_of_word {p : Char → Prop} {u v r r' : List Char} (hu : ∀ c ∈ u, p c)
    (hv : ∀ c ∈ v, p c) (hr : ∀ c ∈ r.head?, ¬p c) (hr' : ∀ c ∈ r'.head?, ¬p c)
    (h : u ++ r = v ++ r') : u = v ∧ r = r' := by
  induction u generalizing v with
  | nil =>
    cases v with
    | nil => exact ⟨rfl, h⟩
    | cons c v =>
      obtain rfl : r = c :: (v ++ r') := h
      exact absurd (hv c List.mem_cons_self) (hr c rfl)
  | cons c u ih =>
    cases v with
    | nil =>
      obtain rfl : c :: (u ++ r) = r' := h
      exact absurd (hu c List.mem_cons_self) (hr' c rfl)
    | cons c' v =>
      obtain ⟨rfl, htail⟩ := List.cons.inj h
      obtain ⟨rfl, hrest⟩ := ih (fun c hc => hu c (List.mem_cons_of_mem _ hc))
        (fun c hc => hv c (List.mem_cons_of_mem _ hc)) htail
      exact ⟨rfl, hrest⟩

section Separated

variable {α : Type} {R : α → List Char → Prop} {first close : Char} {separator : List Char}
  {as bs : List α} {ws vs : List (List Char)} {r r' : List Char}

theorem intercalate_cons (separator w : List Char) (ws : List (List Char)) :
    separator.intercalate (w :: ws) = w ++ ws.flatMap (separator ++ ·) := by
  induction ws generalizing w with
  | nil => simp
  | cons v ws ih => simp only [List.intercalate_cons_cons, ih, List.flatMap_cons, List.append_assoc]

theorem delimited_behind (hfirst : first ∈ closers) (hclose : close ∈ closers)
    (ws : List (List Char)) (r : List Char) :
    Delimited (ws.flatMap (first :: separator ++ ·) ++ close :: r) := by
  cases ws with
  | nil => exact delimited_cons.2 hclose
  | cons w ws => exact delimited_cons.2 hfirst

/-- Elements with a separator before each of them, up to the sign that closes their list. -/
theorem behind_cancel (hfirst : first ∈ closers) (hclose : close ∈ closers) (hne : close ≠ first)
    (ha : ∀ a ∈ as, Cancels R a) (has : List.Forall₂ R as ws) (hbs : List.Forall₂ R bs vs)
    (h : ws.flatMap (first :: separator ++ ·) ++ close :: r =
      vs.flatMap (first :: separator ++ ·) ++ close :: r') : as = bs ∧ r = r' := by
  induction has generalizing bs vs with
  | nil =>
    cases hbs with
    | nil => exact ⟨rfl, List.tail_eq_of_cons_eq h⟩
    | cons => exact absurd (List.head_eq_of_cons_eq h) hne
  | @cons a w as ws hw has ih =>
    cases hbs with
    | nil => exact absurd (List.head_eq_of_cons_eq h).symm hne
    | @cons b v bs vs hv hbs =>
      obtain ⟨hcancel, hrest⟩ := List.forall_mem_cons.1 ha
      simp only [List.flatMap_cons, List.append_assoc, List.append_cancel_left_eq] at h
      obtain ⟨rfl, hbehind⟩ := hcancel b w v _ _ hw hv (delimited_behind hfirst hclose ws r)
        (delimited_behind hfirst hclose vs r') h
      obtain ⟨rfl, hr⟩ := ih hrest hbs hbehind
      exact ⟨rfl, hr⟩

/-- A list whose elements cancel does so too, if what closes it is not what separates the elements. -/
theorem intercalate_append_cancel (hfirst : first ∈ closers) (hclose : close ∈ closers)
    (hne : close ≠ first) (ha : ∀ a ∈ as, Cancels R a) (has : List.Forall₂ R as ws)
    (hbs : List.Forall₂ R bs vs) (hasne : as ≠ []) (hbsne : bs ≠ [])
    (h : (first :: separator).intercalate ws ++ close :: r =
      (first :: separator).intercalate vs ++ close :: r') : as = bs ∧ r = r' := by
  cases has with
  | nil => exact absurd rfl hasne
  | @cons a w as ws hw has =>
    cases hbs with
    | nil => exact absurd rfl hbsne
    | @cons b v bs vs hv hbs =>
      obtain ⟨hcancel, hrest⟩ := List.forall_mem_cons.1 ha
      rw [intercalate_cons, intercalate_cons, List.append_assoc, List.append_assoc] at h
      obtain ⟨rfl, hbehind⟩ := hcancel b w v _ _ hw hv (delimited_behind hfirst hclose ws r)
        (delimited_behind hfirst hclose vs r') h
      obtain ⟨rfl, hr⟩ := behind_cancel hfirst hclose hne hrest has hbs hbehind
      exact ⟨rfl, hr⟩

end Separated

/-- The letters of the text of the type. -/
def Store.Prints (s : Store) (names : NameTable) (t : TypeId) (w : List Char) : Prop :=
  ∃ text, s.text names t = .ok text ∧ text.toList = w

namespace Shape

/-- The text of a shape in two parts: a word without signs, and what begins with a sign. -/
def Splits (names : NameTable) (R : TypeId → List Char → Prop) :
    Shape → List Char → List Char → Prop
  | unknown, w, tail => w = [] ∧ tail = ['?']
  | all, w, tail => w = [] ∧ tail = ['*']
  | empty, w, tail => w = ['N', 'o', 'n', 'e'] ∧ tail = []
  | named name, w, tail => (∃ text, names.text? name = some text ∧ text.toList = w) ∧ tail = []
  | union members, w, tail => w = [] ∧
      ∃ ws, List.Forall₂ R members ws ∧ tail = '(' :: (['|'].intercalate ws ++ [')'])
  | applied base args, w, tail => R base w ∧
      ∃ ws, List.Forall₂ R args ws ∧ tail = '<' :: ([',', ' '].intercalate ws ++ ['>'])

/-- The sign behind the word. -/
def mark : Shape → Option Char
  | unknown => some '?'
  | all => some '*'
  | empty | named _ => none
  | union _ => some '('
  | applied _ _ => some '<'

variable {names : NameTable} {R : TypeId → List Char → Prop} {shape shape' : Shape}
  {w tail r r' : List Char}

theorem Splits.head?_append (h : shape.Splits names R w tail) (r : List Char) :
    (tail ++ r).head? = shape.mark.or r.head? := by
  cases shape with
  | unknown | all | empty | named =>
    obtain ⟨-, rfl⟩ := h
    rfl
  | union | applied =>
    obtain ⟨-, ws, -, rfl⟩ := h
    rfl

theorem mark_not_mem_closers : ∀ c ∈ shape.mark, c ∉ closers := by
  cases shape <;> simp [mark, closers]

theorem mark_mem_signs : ∀ c ∈ shape.mark, c ∈ signs := by
  cases shape <;> simp [mark, signs]

theorem mark_eq_of_or (hr : Delimited r) (hr' : Delimited r')
    (h : shape.mark.or r.head? = shape'.mark.or r'.head?) : shape.mark = shape'.mark := by
  have hmark := @mark_not_mem_closers shape
  have hmark' := @mark_not_mem_closers shape'
  generalize shape.mark = m at h hmark
  generalize shape'.mark = m' at h hmark'
  cases m with
  | none =>
    cases m' with
    | none => rfl
    | some c => exact absurd (hr c h) (hmark' c rfl)
  | some c =>
    cases m' with
    | none => exact absurd (hr' c h.symm) (hmark c rfl)
    | some c' => exact h

/-- After the word of a type there is a sign, if there is anything. -/
theorem Splits.sign_of_mem_head? (h : shape.Splits names R w tail) (hr : Delimited r) :
    ∀ c ∈ (tail ++ r).head?, ¬c ∉ signs := by
  intro c hc
  rw [h.head?_append, Option.mem_def, Option.or_eq_some_iff] at hc
  apply not_not_intro
  rcases hc with hmark | ⟨-, hhead⟩
  · exact mark_mem_signs c hmark
  · exact mem_signs_of_mem_closers (hr c hhead)

theorem kind_eq_of_mark (h : shape.mark = shape'.mark) : shape.kind = shape'.kind ∨
    shape.kind = .empty ∧ shape'.kind = .named ∨ shape.kind = .named ∧ shape'.kind = .empty := by
  cases shape <;> cases shape' <;> simp_all [mark, kind]

theorem forall₂_toList {text : TypeId → Except Fault String} {ts : List TypeId} {texts : List String}
    (h : ts.mapM text = .ok texts) :
    List.Forall₂ (fun t w => ∃ text', text t = .ok text' ∧ text'.toList = w) ts
      (texts.map String.toList) :=
  List.forall₂_map_right_iff.2 ((mapM_eq_ok_iff.1 h).imp fun _ text' ht => ⟨text', ht, rfl⟩)

theorem exists_splits_of_textBy {text : TypeId → Except Fault String} {out : String}
    (h : shape.textBy names text = .ok out) :
    ∃ w tail, shape.Splits names (fun t w => ∃ text', text t = .ok text' ∧ text'.toList = w) w tail ∧
      out.toList = w ++ tail := by
  cases shape with
  | unknown | all | empty =>
    cases h
    exact ⟨_, _, ⟨rfl, rfl⟩, by decide⟩
  | named name =>
    rw [textBy] at h
    cases hname : names.text? name with
    | none =>
      rw [hname] at h
      cases h
    | some text' =>
      rw [hname] at h
      cases h
      exact ⟨_, [], ⟨⟨_, hname, rfl⟩, rfl⟩, (List.append_nil _).symm⟩
  | union members =>
    obtain ⟨texts, htexts, hout⟩ := bind_eq_ok_iff.1 h
    cases hout
    exact ⟨[], _, ⟨rfl, _, forall₂_toList htexts, rfl⟩, by simp⟩
  | applied base args =>
    obtain ⟨first, hfirst, h⟩ := bind_eq_ok_iff.1 h
    obtain ⟨texts, htexts, hout⟩ := bind_eq_ok_iff.1 h
    cases hout
    exact ⟨_, _, ⟨⟨first, hfirst, rfl⟩, _, forall₂_toList htexts, rfl⟩, by simp⟩

theorem exists_textBy {text : TypeId → Except Fault String}
    (hparts : ∀ part ∈ shape.parts, ∃ text', text part = .ok text')
    (hname : ∀ name, shape = .named name → ∃ text', names.text? name = some text') :
    ∃ out, shape.textBy names text = .ok out := by
  cases shape with
  | unknown | all | empty => exact ⟨_, rfl⟩
  | named name =>
    obtain ⟨text', htext⟩ := hname name rfl
    exact ⟨text', by simp only [textBy, htext]; rfl⟩
  | union members =>
    obtain ⟨texts, htexts⟩ := exists_forall₂ hparts
    exact ⟨_, bind_eq_ok_iff.2 ⟨texts, mapM_eq_ok_iff.2 htexts, rfl⟩⟩
  | applied base args =>
    obtain ⟨⟨first, hfirst⟩, hargs⟩ := List.forall_mem_cons.1 hparts
    obtain ⟨texts, htexts⟩ := exists_forall₂ hargs
    exact ⟨_, bind_eq_ok_iff.2 ⟨first, hfirst, bind_eq_ok_iff.2 ⟨texts, mapM_eq_ok_iff.2 htexts, rfl⟩⟩⟩

end Shape

namespace Store

variable {s : Store} {names : NameTable} {t a b : TypeId} {name : Name} {shape : Shape}
  {w tail r r' : List Char}

/-- The names of nominal types have texts that are told apart from all else. -/
def PlainNames (s : Store) (names : NameTable) : Prop :=
  ∀ t name, s.shape t = .ok (.named name) → ∃ text, names.text? name = some text ∧ PlainText text

theorem PlainNames.plain (h : s.PlainNames names) {text : String}
    (hs : s.shape t = .ok (.named name)) (htext : names.text? name = some text) : PlainText text := by
  obtain ⟨text', htext', hplain⟩ := h t name hs
  cases htext.symm.trans htext'
  exact hplain

namespace WellFormed

theorem exists_splits (h : s.WellFormed) (ht : s.Prints names t w) : ∃ shape x tail,
    s.shape t = .ok shape ∧ shape.Splits names (s.Prints names) x tail ∧ w = x ++ tail := by
  obtain ⟨text, htext, rfl⟩ := ht
  rw [h.text_eq names t] at htext
  obtain ⟨shape, hs, htext⟩ := bind_eq_ok_iff.1 htext
  obtain ⟨x, tail, hsplits, hw⟩ := Shape.exists_splits_of_textBy htext
  exact ⟨shape, x, tail, hs, hsplits, hw⟩

theorem no_sign_of_named (h : s.WellFormed) (hnames : s.PlainNames names)
    (hs : s.shape t = .ok (.named name)) (ht : s.Prints names t w) : ∀ c ∈ w, c ∉ signs := by
  obtain ⟨shape, x, tail, hs', hsplits, rfl⟩ := h.exists_splits ht
  cases hs.symm.trans hs'
  obtain ⟨⟨text, htext, rfl⟩, rfl⟩ := hsplits
  rw [List.append_nil]
  exact (hnames.plain hs htext).no_sign

/-- The word of a type is that of a nominal type, that of the empty type, or empty. -/
theorem no_sign_in_word (h : s.WellFormed) (hnames : s.PlainNames names) (hs : s.shape t = .ok shape)
    (hsplits : shape.Splits names (s.Prints names) w tail) : ∀ c ∈ w, c ∉ signs := by
  cases shape with
  | unknown | all | union =>
    rw [hsplits.1]
    exact nofun
  | empty =>
    rw [hsplits.1]
    simp [signs]
  | named name =>
    obtain ⟨⟨text, htext, rfl⟩, -⟩ := hsplits
    exact (hnames.plain hs htext).no_sign
  | applied base args =>
    obtain ⟨shape, hbase, hk⟩ := kind_eq_ok_iff.1 (h.normal hs).1
    cases shape with
    | named name => exact h.no_sign_of_named hnames hbase hsplits.1
    | unknown | all | empty | union | applied => cases hk

/-- A name is not written as the empty type is. -/
theorem ne_none_of_named (hnames : s.PlainNames names) (hs : s.shape t = .ok (.named name))
    (hsplits : (Shape.named name).Splits names (s.Prints names) w tail) :
    w ≠ ['N', 'o', 'n', 'e'] := by
  obtain ⟨⟨text, htext, rfl⟩, -⟩ := hsplits
  intro hnone
  have hwritten : ['N', 'o', 'n', 'e'] = "None".toList := by decide
  exact (hnames.plain hs htext).ne_none (String.toList_inj.1 (hnone.trans hwritten))

/-- The sign behind the word tells the kind of a type, and the word itself tells a name from
`None`. -/
theorem kind_eq_of_splits (hnames : s.PlainNames names) {shape' : Shape} {tail' : List Char}
    (hs : s.shape a = .ok shape) (hs' : s.shape b = .ok shape')
    (ha : shape.Splits names (s.Prints names) w tail)
    (hb : shape'.Splits names (s.Prints names) w tail') (hmark : shape.mark = shape'.mark) :
    shape.kind = shape'.kind := by
  rcases Shape.kind_eq_of_mark hmark with hk | ⟨hk, hk'⟩ | ⟨hk, hk'⟩
  · exact hk
  · cases shape <;> cases hk
    cases shape' <;> cases hk'
    exact absurd ha.1 (ne_none_of_named hnames hs' hb)
  · cases shape <;> cases hk
    cases shape' <;> cases hk'
    exact absurd hb.1 (ne_none_of_named hnames hs ha)

/-- Shapes of one kind with the same word are equal if their texts are cut off at their ends. -/
theorem eq_of_splits {shape' : Shape} {tail' : List Char}
    (hinj : ∀ n n' text, names.text? n = some text → names.text? n' = some text → n = n')
    (hparts : ∀ part ∈ shape.parts, Cancels (s.Prints names) part) (hn : s.Normal shape)
    (hn' : s.Normal shape') (hkind : shape.kind = shape'.kind)
    (ha : shape.Splits names (s.Prints names) w tail)
    (hb : shape'.Splits names (s.Prints names) w tail') (h : tail ++ r = tail' ++ r') :
    shape = shape' ∧ r = r' := by
  cases shape with
  | unknown | all | empty =>
    cases shape' <;> cases hkind
    rw [ha.2, hb.2] at h
    exact ⟨rfl, List.append_cancel_left h⟩
  | named name =>
    cases shape' <;> cases hkind
    obtain ⟨⟨text, htext, rfl⟩, rfl⟩ := ha
    obtain ⟨⟨text', htext', heq⟩, rfl⟩ := hb
    obtain rfl := String.toList_inj.1 heq
    exact ⟨congrArg Shape.named (hinj _ _ _ htext htext'), h⟩
  | union members =>
    cases shape' <;> cases hkind
    obtain ⟨-, ws, hws, rfl⟩ := ha
    obtain ⟨-, vs, hvs, rfl⟩ := hb
    simp only [List.cons_append, List.append_assoc, List.nil_append, List.cons.injEq, true_and] at h
    obtain ⟨hms, hr⟩ := intercalate_append_cancel (by decide) (by decide) (by decide) hparts hws hvs
      (List.ne_nil_of_length_pos (Nat.lt_of_lt_of_le Nat.two_pos hn.1))
      (List.ne_nil_of_length_pos (Nat.lt_of_lt_of_le Nat.two_pos hn'.1)) h
    exact ⟨congrArg Shape.union hms, hr⟩
  | applied base args =>
    cases shape' with
    | applied base' args' =>
      obtain ⟨hbase, ws, hws, rfl⟩ := ha
      obtain ⟨hbase', vs, hvs, rfl⟩ := hb
      simp only [List.cons_append, List.append_assoc, List.nil_append, List.cons.injEq,
        true_and] at h
      obtain ⟨hcancel, hargs⟩ := List.forall_mem_cons.1 hparts
      -- The word is all there is to the text of the base.
      obtain ⟨rfl, -⟩ := hcancel base' w w [] [] hbase hbase' nofun nofun rfl
      obtain ⟨rfl, hr⟩ := intercalate_append_cancel (by decide) (by decide) (by decide) hargs hws hvs
        hn.2 hn'.2 h
      exact ⟨rfl, hr⟩
    | unknown | all | empty | named | union => cases hkind

theorem cancels (h : s.WellFormed) (hnames : s.PlainNames names)
    (hinj : ∀ n n' text, names.text? n = some text → names.text? n' = some text → n = n')
    (a : TypeId) : Cancels (s.Prints names) a := by
  -- What follows stays general, since behind a part there is the rest of the whole.
  induction a using h.induction with
  | step a ih =>
    intro b w v r r' ha hb hr hr' heq
    obtain ⟨shape, x, tail, hs, hsplits, rfl⟩ := h.exists_splits ha
    obtain ⟨shape', x', tail', hs', hsplits', rfl⟩ := h.exists_splits hb
    rw [List.append_assoc, List.append_assoc] at heq
    obtain ⟨rfl, htail⟩ := append_cancel_of_word (h.no_sign_in_word hnames hs hsplits)
      (h.no_sign_in_word hnames hs' hsplits') (hsplits.sign_of_mem_head? hr)
      (hsplits'.sign_of_mem_head? hr') heq
    have hmark : shape.mark = shape'.mark := Shape.mark_eq_of_or hr hr' <| by
      rw [← hsplits.head?_append, htail, hsplits'.head?_append]
    have hkind := kind_eq_of_splits hnames hs hs' hsplits hsplits' hmark
    obtain ⟨rfl, hr⟩ := eq_of_splits hinj (ih shape hs) (h.normal hs) (h.normal hs') hkind hsplits
      hsplits' htail
    exact ⟨h.eq_of_shape hs hs', hr⟩

theorem exists_text (h : s.WellFormed) (hnames : s.PlainNames names) (t : TypeId)
    (ht : t.index < s.size) : ∃ text, s.text names t = .ok text := by
  induction t using h.induction with
  | step t ih =>
    obtain ⟨shape, hs⟩ := exists_shape_of_lt_size ht
    have hparts : ∀ part ∈ shape.parts, ∃ text, s.text names part = .ok text := fun part hp =>
      ih shape hs part hp (Nat.lt_trans (h.parts_lt hs part hp) ht)
    rw [h.text_eq, hs, ok_bind]
    refine Shape.exists_textBy hparts ?_
    rintro name rfl
    exact (hnames t name hs).imp fun _ htext => htext.1

end WellFormed

/-- If the names of all nominal types are plain texts, every type has a text, no other type has the
same, and writing the type behind a buffer adds this text. -/
theorem Reachable.text_unambiguous (h : s.Reachable) (spread : Spread) (texts : List String)
    (hn : names = (NameTable.new spread).addAll texts) (hnames : s.PlainNames names) :
    (∀ a b : TypeId, a.index < s.size → b.index < s.size → ∃ text text',
      s.text names a = .ok text ∧ s.text names b = .ok text' ∧ (text = text' → a = b)) ∧
    ∀ (buffer : String) (t : TypeId), t.index < s.size → ∃ text,
      s.text names t = .ok text ∧ s.write names buffer t = .ok (buffer ++ text) := by
  have hwf := h.wellFormed
  obtain ⟨held, hheld⟩ := NameTable.exists_new_addAll_holds spread texts
  rw [← hn] at hheld
  have hinj : ∀ n n' text, names.text? n = some text → names.text? n' = some text → n = n' :=
    fun n n' text => hheld.text?_injective
  refine ⟨fun a b ha hb => ?_, fun buffer t ht => ?_⟩
  · obtain ⟨text, htext⟩ := hwf.exists_text hnames a ha
    obtain ⟨text', htext'⟩ := hwf.exists_text hnames b hb
    refine ⟨text, text', htext, htext', ?_⟩
    rintro rfl
    have hcancel := hwf.cancels hnames hinj a
    exact (hcancel b _ _ [] [] ⟨text, htext, rfl⟩ ⟨text, htext', rfl⟩ nofun nofun rfl).1
  · obtain ⟨text, htext⟩ := hwf.exists_text hnames t ht
    refine ⟨text, htext, ?_⟩
    rw [write_eq, htext]
    rfl

theorem sampleTypes_plainNames : sampleTypes.PlainNames (.new .byScalars) := by
  rintro ⟨i⟩ name hs
  match i with
  | 3 =>
    cases hs
    exact ⟨"rawTypeOf", rfl, by decide, by decide, by simp [signs]⟩
  | 4 =>
    cases hs
    exact ⟨"type", rfl, by decide, by decide, by simp [signs]⟩
  | 0 | 1 | 2 | 5 | 6 | 7 | 8 => cases hs
  | i + 9 => cases hs

/-- With `rawTypeOf` and `type` as the names of the two nominal types. -/
theorem sampleTypes_text_unambiguous :
    sampleTypes.text (.new .byScalars) ⟨8⟩ = .ok "(type|rawTypeOf<?>)" ∧
      ∀ t : TypeId, t.index < sampleTypes.size →
        sampleTypes.text (.new .byScalars) t = .ok "(type|rawTypeOf<?>)" → t = ⟨8⟩ := by
  have htext : sampleTypes.text (.new .byScalars) ⟨8⟩ = .ok "(type|rawTypeOf<?>)" := by decide
  obtain ⟨honly, -⟩ := sampleTypes_reachable.text_unambiguous .byScalars [] rfl sampleTypes_plainNames
  refine ⟨htext, fun t ht ht' => ?_⟩
  obtain ⟨text, text', hfirst, hsecond, heq⟩ := honly t ⟨8⟩ ht (by decide)
  cases htext.symm.trans hsecond
  cases ht'.symm.trans hfirst
  exact heq rfl

end Store

end TypeCalculus
