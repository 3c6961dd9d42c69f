import Mathlib.Data.List.TakeDrop
import Unknowns.Json.Parser

/-!
# What is written as JSON reads back

`parse?_render`: the text of a value is read as that value, provided that its strings
say texts and its numbers are whole (`Written`), as in all forms of this library.

The proof follows the value.  Each reader is given what is written and any characters
behind it, of which it takes none; only behind a number it matters what these are
(`Stops`).  A reader takes a character at least at every second step, so twice the length
of a text is enough fuel for it.
-/

namespace Unknowns

namespace Quotation

/-- A character that is escaped is taken as it is written. -/
theorem readFrom_escape_append (before : List Char) (c : Char) (rest : List Char) :
    readFrom before (escape c ++ rest) = readFrom ((escape c).reverse ++ before) rest := by
  unfold escape
  split_ifs with hquote hback hcontrol
  · rfl
  · rfl
  · have hi := hexValue?_hexDigit (c.toNat / 16) (by omega)
    have lo := hexValue?_hexDigit (c.toNat % 16) (by omega)
    have hzero : hexValue? '0' = some 0 := by decide
    have hfour : hex4? '0' '0' (hexDigit (c.toNat / 16)) (hexDigit (c.toNat % 16)) =
        some (((0 * 16 + 0) * 16 + c.toNat / 16) * 16 + c.toNat % 16) := by
      simp only [hex4?, hzero, hi, lo, Option.bind_eq_bind, Option.bind_some]
    simp only [List.cons_append, List.nil_append, readFrom, hfour]
    rfl
  · rw [List.singleton_append, readFrom]
    · rw [if_neg hcontrol]
      rfl
    all_goals simp_all

/-- **A string that says a text** is read up to its closing quote. -/
theorem read?_ofText (s : String) (rest : List Char) :
    read? ((ofText s).inner ++ '"' :: rest) = some (ofText s, rest) := by
  have hchars : ∀ (cs before : List Char), readFrom before (cs.flatMap escape ++ '"' :: rest) =
      some (⟨before.reverse ++ cs.flatMap escape⟩, rest) := by
    intro cs
    induction cs with
    | nil => exact fun before => by rw [List.flatMap_nil, List.append_nil]; rfl
    | cons c cs ih =>
      intro before
      rw [List.flatMap_cons, List.append_assoc, readFrom_escape_append, ih, List.reverse_append,
        List.reverse_reverse, List.append_assoc]
  exact hchars s.toList []

end Quotation

namespace Json

/-! ### Numbers -/

/-- The characters do not go on with a number. -/
def Stops : List Char → Prop
  | [] => True
  | c :: _ => c.isDigit = false ∧ c ≠ '.' ∧ c ≠ 'e' ∧ c ≠ 'E'

theorem stops_cons {c : Char} (h : c.isDigit = false ∧ c ≠ '.' ∧ c ≠ 'e' ∧ c ≠ 'E')
    (rest : List Char) : Stops (c :: rest) := h

theorem digitsValue_toDigits (n : Nat) : digitsValue (Nat.toDigits 10 n) = n := by
  have hfold : digitsValue (Nat.toDigits 10 n) = Nat.ofDigitChars 10 (Nat.toDigits 10 n) 0 := by
    rw [digitsValue, Nat.ofDigitChars_eq_foldl]
    congr 1
    funext m d
    rw [Nat.mul_comm]
    rfl
  rw [hfold, Nat.ofDigitChars_ten_toDigits]

theorem toDigits_eq_cons (n : Nat) :
    ∃ d ds, Nat.toDigits 10 n = d :: ds ∧ d.isDigit = true := by
  obtain ⟨d, ds, hd⟩ := List.exists_cons_of_ne_nil (Nat.toDigits_ne_nil (n := n) (b := 10))
  refine ⟨d, ds, hd, Nat.isDigit_of_mem_toDigits (b := 10) (n := n) (by decide) (by decide) ?_⟩
  rw [hd]
  exact List.mem_cons_self

/-- A number that is not zero does not begin with a zero. -/
theorem toDigits_ne_zero_cons {n : Nat} (hn : 0 < n) (ds : List Char) :
    Nat.toDigits 10 n ≠ '0' :: ds := by
  induction n using Nat.strongRecOn generalizing ds with
  | ind n ih =>
    by_cases hlt : n < 10
    · have hdigit : ∀ m < 10, 0 < m → m.digitChar ≠ '0' := by decide
      rw [Nat.toDigits_of_lt_base hlt]
      exact fun he => hdigit n hlt hn (List.cons.inj he).1
    · rw [Nat.toDigits_of_base_le (by decide) (by omega)]
      obtain ⟨c, cs, hc, -⟩ := toDigits_eq_cons (n / 10)
      intro he
      rw [hc, List.cons_append] at he
      obtain rfl := (List.cons.inj he).1
      exact ih (n / 10) (by omega) (by omega) cs hc

theorem readDigits_append {ds rest : List Char} (hds : ∀ d ∈ ds, d.isDigit = true)
    (h : Stops rest) : readDigits (ds ++ rest) = (ds, rest) := by
  rw [readDigits, List.span_eq_takeWhile_dropWhile, List.takeWhile_append_of_pos hds,
    List.dropWhile_append_of_pos hds]
  cases rest with
  | nil => rw [List.takeWhile_nil, List.append_nil, List.dropWhile_nil]
  | cons c rest =>
    have hc : ¬ c.isDigit = true := by rw [h.1]; exact Bool.false_ne_true
    rw [List.takeWhile_cons_of_neg hc, List.append_nil, List.dropWhile_cons_of_neg hc]

theorem readWhole_toDigits (n : Nat) {rest : List Char} (h : Stops rest) :
    readWhole (Nat.toDigits 10 n ++ rest) = some (Nat.toDigits 10 n, rest) := by
  have hdigits : ∀ d ∈ Nat.toDigits 10 n, d.isDigit = true := fun d hd =>
    Nat.isDigit_of_mem_toDigits (by decide) (by decide) hd
  rw [readWhole, readDigits_append hdigits h]
  obtain ⟨d, ds, hd, -⟩ := toDigits_eq_cons n
  rw [hd]
  refine if_neg ?_
  rintro ⟨rfl, hne⟩
  rcases Nat.eq_zero_or_pos n with rfl | hpos
  · rw [Nat.toDigits_zero] at hd
    exact hne (List.cons.inj hd).2.symm
  · exact toDigits_ne_zero_cons hpos ds hd

theorem readFraction_of_stops {rest : List Char} (h : Stops rest) :
    readFraction rest = some ([], rest) := by
  unfold readFraction
  split
  · exact absurd rfl h.2.1
  · rfl

theorem readExponent_of_stops {rest : List Char} (h : Stops rest) :
    readExponent rest = some ([], rest) := by
  unfold readExponent
  split
  · rw [if_neg (not_or.2 h.2.2)]
  · rfl

/-- **The digits of a number** are read as that number. -/
theorem readNumber_toDigits {negative : Bool} {n : Nat} (hsign : negative = true → n ≠ 0)
    {rest : List Char} (h : Stops rest) :
    readNumber negative (Nat.toDigits 10 n ++ rest) =
      some (int (if negative then -n else n), rest) := by
  simp only [readNumber, readWhole_toDigits n h, readFraction_of_stops h, readExponent_of_stops h,
    Option.bind_eq_bind, Option.bind_some, digitsValue_toDigits, List.isEmpty_nil, Bool.true_and]
  refine if_pos ?_
  cases negative with
  | false => rfl
  | true => simpa using hsign rfl

/-- The text of a whole number: its digits, behind a sign if it is negative. -/
theorem toList_toString_int (n : Int) :
    (toString n).toList =
      if 0 ≤ n then Nat.toDigits 10 n.toNat else '-' :: Nat.toDigits 10 (-n).toNat := by
  cases n with
  | ofNat m =>
    rw [if_pos (show 0 ≤ Int.ofNat m from Int.natCast_nonneg m), Int.toString_eq_repr]
    show (Nat.repr m).toList = _
    rw [Nat.repr_eq_ofList_toDigits, String.toList_ofList]
    rfl
  | negSucc m =>
    rw [if_neg (Int.negSucc_not_nonneg m).1, Int.toString_eq_repr]
    show ("-" ++ Nat.repr (m + 1)).toList = _
    simp only [String.toList_append, Nat.repr_eq_ofList_toDigits, String.toList_ofList]
    rfl

/-! ### Values -/

/-- The strings of the value say texts, and its numbers are whole. -/
inductive Written : Json → Prop
  | null : Written null
  | bool (b : Bool) : Written (bool b)
  | int (n : Int) : Written (int n)
  | str (s : String) : Written (str (.ofText s))
  | arr {items : List Json} (h : ∀ x ∈ items, Written x) : Written (arr items)
  | obj {fields : List (Quotation × Json)} (hnames : ∀ f ∈ fields, ∃ s, f.1 = .ofText s)
      (h : ∀ f ∈ fields, Written f.2) : Written (obj fields)

/-- A character with which a value can begin: no blank, and nothing that ends a list. -/
def Begins (c : Char) : Prop := isBlank c = false ∧ c ≠ ']'

theorem begins_of_isDigit {c : Char} (h : c.isDigit = true) : Begins c := by
  have hne : ∀ d : Char, d.isDigit = false → c ≠ d := fun d hd he => by
    rw [he, hd] at h
    exact Bool.false_ne_true h
  have hblank : isBlank c = false := by
    simp only [isBlank, Bool.or_eq_false_iff, decide_eq_false_iff_not]
    exact ⟨⟨⟨hne _ (by decide), hne _ (by decide)⟩, hne _ (by decide)⟩, hne _ (by decide)⟩
  exact ⟨hblank, hne _ (by decide)⟩

theorem skipBlanks_cons {c : Char} (h : isBlank c = false) (cs : List Char) :
    skipBlanks (c :: cs) = c :: cs :=
  List.dropWhile_cons_of_neg (by rw [h]; exact Bool.false_ne_true)

theorem toList_render_str (q : Quotation) :
    (str q).render.toList = '"' :: (q.inner ++ ['"']) := by
  simp only [render, Quotation.render, String.toList_append, String.toList_ofList]
  rfl

theorem toList_render_arr (items : List Json) :
    (arr items).render.toList = '[' :: ((renderItems items).toList ++ [']']) := by
  simp only [render, String.toList_append]
  rfl

theorem toList_render_obj (fields : List (Quotation × Json)) :
    (obj fields).render.toList = '\x7b' :: ((renderFields fields).toList ++ ['\x7d']) := by
  simp only [render, String.toList_append]
  rfl

theorem toList_renderItems_cons (x y : Json) (items : List Json) :
    (renderItems (x :: y :: items)).toList =
      x.render.toList ++ ',' :: (renderItems (y :: items)).toList := by
  simp only [renderItems, String.toList_append, List.append_assoc]
  rfl

/-- The text of a field. -/
theorem toList_renderFields_singleton (name : Quotation) (x : Json) :
    (renderFields [(name, x)]).toList = '"' :: (name.inner ++ '"' :: ':' :: x.render.toList) := by
  simp only [renderFields, Quotation.render, String.toList_append, String.toList_ofList,
    List.append_assoc]
  rfl

theorem toList_renderFields_cons (f g : Quotation × Json) (fields : List (Quotation × Json)) :
    (renderFields (f :: g :: fields)).toList =
      (renderFields [f]).toList ++ ',' :: (renderFields (g :: fields)).toList := by
  simp only [renderFields, String.toList_append, List.append_assoc]
  rfl

theorem begins_render {j : Json} (h : Written j) :
    ∃ c cs, j.render.toList = c :: cs ∧ Begins c := by
  cases h with
  | null => exact ⟨'n', ['u', 'l', 'l'], by rw [render]; rfl, by decide, by decide⟩
  | bool b =>
    cases b with
    | true => exact ⟨'t', ['r', 'u', 'e'], by rw [render]; rfl, by decide, by decide⟩
    | false => exact ⟨'f', ['a', 'l', 's', 'e'], by rw [render]; rfl, by decide, by decide⟩
  | int n =>
    rw [render, toList_toString_int]
    split_ifs with hn
    · obtain ⟨d, ds, hd, hdigit⟩ := toDigits_eq_cons n.toNat
      exact ⟨d, ds, hd, begins_of_isDigit hdigit⟩
    · exact ⟨'-', _, rfl, by decide, by decide⟩
  | str s => exact ⟨'"', _, toList_render_str _, by decide, by decide⟩
  | arr => exact ⟨'[', _, toList_render_arr _, by decide, by decide⟩
  | obj => exact ⟨'\x7b', _, toList_render_obj _, by decide, by decide⟩

theorem begins_renderItems {x : Json} (h : Written x) (items : List Json) :
    ∃ c cs, (renderItems (x :: items)).toList = c :: cs ∧ Begins c := by
  obtain ⟨c, cs, hc, hbegins⟩ := begins_render h
  cases items with
  | nil => exact ⟨c, cs, hc, hbegins⟩
  | cons y items =>
    refine ⟨c, cs ++ ',' :: (renderItems (y :: items)).toList, ?_, hbegins⟩
    rw [toList_renderItems_cons, hc, List.cons_append]

theorem begins_renderFields (f : Quotation × Json) (fields : List (Quotation × Json)) :
    ∃ cs, (renderFields (f :: fields)).toList = '"' :: cs := by
  have hf := toList_renderFields_singleton f.1 f.2
  cases fields with
  | nil => exact ⟨_, hf⟩
  | cons g fields =>
    rw [toList_renderFields_cons, hf]
    exact ⟨_, List.cons_append⟩

/-! ### Readers -/

/-- **The text of the value is read as the value**, in steps twice as many as it has characters, and
nothing of what stands behind it is taken. -/
def ReadsBack (x : Json) : Prop :=
  ∀ (fuel : Nat) (rest : List Char), 2 * x.render.toList.length < fuel → Stops rest →
    readValue fuel (x.render.toList ++ rest) = some (x, rest)

theorem readValue_of_isDigit {fuel : Nat} {c : Char} (h : c.isDigit = true) (cs : List Char) :
    readValue (fuel + 1) (c :: cs) = readNumber false (c :: cs) := by
  rw [readValue, skipBlanks_cons (begins_of_isDigit h).1]
  split
  case h_8 => rfl
  all_goals
    next he =>
      rw [(List.cons.inj he).1] at h
      exact absurd h (by decide)

theorem readsBack_int (n : Int) : ReadsBack (int n) := by
  intro fuel rest hfuel hrest
  obtain ⟨fuel, rfl⟩ := Nat.exists_eq_succ_of_ne_zero (Nat.ne_zero_of_lt hfuel)
  rw [render, toList_toString_int]
  split_ifs with hn
  · obtain ⟨d, ds, hd, hdigit⟩ := toDigits_eq_cons n.toNat
    rw [hd, List.cons_append, readValue_of_isDigit hdigit, ← List.cons_append, ← hd,
      readNumber_toDigits (fun h => (Bool.false_ne_true h).elim) hrest,
      if_neg Bool.false_ne_true, Int.toNat_of_nonneg hn]
  · have hne : (-n).toNat ≠ 0 := by omega
    rw [List.cons_append, readValue, skipBlanks_cons (by decide)]
    show readNumber true _ = _
    rw [readNumber_toDigits (fun _ => hne) hrest, if_pos rfl, Int.toNat_of_nonneg (by omega),
      Int.neg_neg]

theorem readItems_renderItems {items : List Json} (hne : items ≠ [])
    (h : ∀ x ∈ items, ReadsBack x) (fuel : Nat) (rest : List Char)
    (hfuel : 2 * (renderItems items).toList.length + 1 < fuel) :
    readItems fuel ((renderItems items).toList ++ ']' :: rest) = some (items, rest) := by
  induction items generalizing fuel with
  | nil => exact absurd rfl hne
  | cons x items ih =>
    obtain ⟨fuel, rfl⟩ := Nat.exists_eq_succ_of_ne_zero (Nat.ne_zero_of_lt hfuel)
    cases items with
    | nil =>
      rw [renderItems] at hfuel ⊢
      rw [readItems, h x List.mem_cons_self _ _ (by omega) (stops_cons (by decide) _)]
      rfl
    | cons y items =>
      have hrest := ih (List.cons_ne_nil _ _) (fun z hz => h z (List.mem_cons_of_mem _ hz)) fuel
      rw [toList_renderItems_cons, List.length_append, List.length_cons] at hfuel
      rw [toList_renderItems_cons, List.append_assoc, List.cons_append, readItems,
        h x List.mem_cons_self _ _ (by omega) (stops_cons (by decide) _)]
      exact congrArg (fun r => Option.bind r _) (hrest (by omega))

/-- One field is read, and then what follows it. -/
theorem readFields_field {s : String} {x : Json} (hx : ReadsBack x) {fuel : Nat} {cs : List Char}
    (hfuel : 2 * x.render.toList.length < fuel) (hcs : Stops cs) :
    readFields (fuel + 1) ((renderFields [(.ofText s, x)]).toList ++ cs) =
      match skipBlanks cs with
      | ',' :: rest => do
        let (fields, rest) ← readFields fuel rest
        some ((.ofText s, x) :: fields, rest)
      | '\x7d' :: rest => some ([(.ofText s, x)], rest)
      | _ => none := by
  rw [toList_renderFields_singleton, List.cons_append, readFields, skipBlanks_cons (by decide)]
  simp only [List.append_assoc, List.cons_append, Quotation.read?_ofText, Option.bind_eq_bind,
    Option.bind_some]
  rw [skipBlanks_cons (by decide)]
  exact congrArg (fun r => Option.bind r _) (hx _ _ hfuel hcs)

theorem readFields_renderFields {fields : List (Quotation × Json)} (hne : fields ≠ [])
    (hnames : ∀ f ∈ fields, ∃ s, f.1 = .ofText s) (h : ∀ f ∈ fields, ReadsBack f.2)
    (fuel : Nat) (rest : List Char)
    (hfuel : 2 * (renderFields fields).toList.length + 1 < fuel) :
    readFields fuel ((renderFields fields).toList ++ '\x7d' :: rest) = some (fields, rest) := by
  induction fields generalizing fuel with
  | nil => exact absurd rfl hne
  | cons f fields ih =>
    obtain ⟨fuel, rfl⟩ := Nat.exists_eq_succ_of_ne_zero (Nat.ne_zero_of_lt hfuel)
    obtain ⟨name, x⟩ := f
    obtain ⟨s, rfl : name = .ofText s⟩ := hnames _ List.mem_cons_self
    have hx : ReadsBack x := h (.ofText s, x) List.mem_cons_self
    have hlength : x.render.toList.length <
        (renderFields [(Quotation.ofText s, x)]).toList.length := by
      rw [toList_renderFields_singleton, List.length_cons, List.length_append, List.length_cons,
        List.length_cons]
      omega
    cases fields with
    | nil =>
      rw [readFields_field hx (by omega) (stops_cons (by decide) _)]
      rfl
    | cons g fields =>
      have hrest := ih (List.cons_ne_nil _ _)
        (fun g hg => hnames g (List.mem_cons_of_mem _ hg))
        (fun g hg => h g (List.mem_cons_of_mem _ hg)) fuel
      rw [toList_renderFields_cons, List.length_append, List.length_cons] at hfuel
      rw [toList_renderFields_cons, List.append_assoc, List.cons_append,
        readFields_field hx (by omega) (stops_cons (by decide) _)]
      exact congrArg (fun r => Option.bind r _) (hrest (by omega))

theorem readsBack_str (s : String) : ReadsBack (str (.ofText s)) := by
  intro fuel rest hfuel _
  obtain ⟨fuel, rfl⟩ := Nat.exists_eq_succ_of_ne_zero (Nat.ne_zero_of_lt hfuel)
  rw [toList_render_str, List.cons_append, List.append_assoc, List.singleton_append, readValue,
    skipBlanks_cons (by decide)]
  show (Quotation.read? _).map _ = _
  rw [Quotation.read?_ofText]
  rfl

theorem readsBack_arr {items : List Json} (hwritten : ∀ x ∈ items, Written x)
    (h : ∀ x ∈ items, ReadsBack x) : ReadsBack (arr items) := by
  intro fuel rest hfuel _
  obtain ⟨fuel, rfl⟩ := Nat.exists_eq_succ_of_ne_zero (Nat.ne_zero_of_lt hfuel)
  rw [toList_render_arr, List.length_cons, List.length_append] at hfuel
  rw [toList_render_arr, List.cons_append, List.append_assoc, List.singleton_append, readValue,
    skipBlanks_cons (by decide)]
  cases items with
  | nil =>
    rw [renderItems]
    rfl
  | cons x items =>
    have hitems := readItems_renderItems (List.cons_ne_nil x items) h fuel rest (by omega)
    obtain ⟨c, cs, hc, hblank, hclose⟩ :=
      begins_renderItems (hwritten x List.mem_cons_self) items
    rw [hc, List.cons_append] at hitems ⊢
    simp only [skipBlanks_cons hblank]
    split
    · next he => exact absurd (List.cons.inj he).1 hclose
    · rw [hitems]
      rfl

theorem readsBack_obj {fields : List (Quotation × Json)}
    (hnames : ∀ f ∈ fields, ∃ s, f.1 = .ofText s) (h : ∀ f ∈ fields, ReadsBack f.2) :
    ReadsBack (obj fields) := by
  intro fuel rest hfuel _
  obtain ⟨fuel, rfl⟩ := Nat.exists_eq_succ_of_ne_zero (Nat.ne_zero_of_lt hfuel)
  rw [toList_render_obj, List.length_cons, List.length_append] at hfuel
  rw [toList_render_obj, List.cons_append, List.append_assoc, List.singleton_append, readValue,
    skipBlanks_cons (by decide)]
  cases fields with
  | nil =>
    rw [renderFields]
    rfl
  | cons f fields =>
    have hfields := readFields_renderFields (List.cons_ne_nil f fields) hnames h fuel
      rest (by omega)
    obtain ⟨cs, hcs⟩ := begins_renderFields f fields
    rw [hcs, List.cons_append] at hfields ⊢
    simp only [skipBlanks_cons (show isBlank '"' = false by decide)]
    split
    · next he => exact absurd (List.cons.inj he).1 (by decide)
    · rw [hfields]
      rfl

/-- **A written value reads back.** -/
theorem Written.readsBack {j : Json} (h : Written j) : ReadsBack j := by
  induction h with
  | null =>
    intro fuel rest hfuel _
    obtain ⟨fuel, rfl⟩ := Nat.exists_eq_succ_of_ne_zero (Nat.ne_zero_of_lt hfuel)
    rw [render]
    rfl
  | bool b =>
    intro fuel rest hfuel _
    obtain ⟨fuel, rfl⟩ := Nat.exists_eq_succ_of_ne_zero (Nat.ne_zero_of_lt hfuel)
    cases b with
    | false =>
      rw [render]
      rfl
    | true =>
      rw [render]
      rfl
  | int n => exact readsBack_int n
  | str s => exact readsBack_str s
  | arr hitems ih => exact readsBack_arr hitems ih
  | obj hnames _ ih => exact readsBack_obj hnames ih

/-- What is written is read up to its end. -/
theorem parseFront?_render {j : Json} (h : Written j) : parseFront? j.render = some (j, []) := by
  have hread := h.readsBack (2 * j.render.toList.length + 2) [] (by omega) trivial
  rw [List.append_nil] at hread
  exact hread

/-- **What is written reads back.** -/
theorem parse?_render {j : Json} (h : Written j) : parse? j.render = some j := by
  rw [parse?, parseFront?_render h]
  rfl

end Json

end Unknowns
