import SchemaHistory.Json.Writer
import SchemaHistory.Proofs.Text.Pieces

/-! # Compact texts are unambiguous

A plain value has natural numbers only, and its texts and names need no escapes.  The compact text
of a plain value determines the value and where the text ends, unless a digit follows
(`Plain.determined`): the first letter tells what kind of value comes, and in lists a comma or the
closing bracket tells whether there is a next one. -/
set_option autoImplicit false
namespace SchemaHistory

/-! ## Lists in brackets -/

section
variable {α : Type}

def Text.listed (chunk : α → Text) : List α → Text
  | [] => []
  | x :: xs => chunk x ++ xs.flatMap fun y => .char ',' :: chunk y

/-- The chunk of `x` can be told from all others, unless a digit follows. -/
def Text.Determined (chunk : α → Text) (good : α → Prop) (x : α) : Prop :=
  ∀ y r s, good y → Text.Stops Text.isWesternDigit r → Text.Stops Text.isWesternDigit s →
    chunk x ++ r = chunk y ++ s → x = y ∧ r = s

variable {chunk : α → Text} {good : α → Prop} {close : Char} {xs ys : List α} {r s : Text}

theorem Text.stops_later (notDigit : close.isDigit = false) :
    Text.Stops Text.isWesternDigit
      ((xs.flatMap fun y => .char ',' :: chunk y) ++ .char close :: r) := by
  cases xs with
  | nil => exact Text.stops_cons.mpr notDigit
  | cons x xs => exact Text.stops_cons.mpr (by decide)

theorem Text.later_unique (notComma : close ≠ ',') (notDigit : close.isDigit = false)
    (determined : ∀ x ∈ xs, Text.Determined chunk good x) (all : ∀ y ∈ ys, good y)
    (same : (xs.flatMap fun x => .char ',' :: chunk x) ++ .char close :: r =
      (ys.flatMap fun y => .char ',' :: chunk y) ++ .char close :: s) : xs = ys ∧ r = s := by
  induction xs generalizing ys with
  | nil =>
      cases ys with
      | nil => exact ⟨rfl, (List.cons.inj same).2⟩
      | cons y ys => exact absurd (Letter.char.inj (List.cons.inj same).1) notComma
  | cons x xs ih =>
      cases ys with
      | nil => exact absurd (Letter.char.inj (List.cons.inj same).1).symm notComma
      | cons y ys =>
          obtain ⟨own, others⟩ := List.forall_mem_cons.mp determined
          obtain ⟨first, later⟩ := List.forall_mem_cons.mp all
          simp only [List.flatMap_cons, List.cons_append, List.append_assoc, List.cons.injEq,
            true_and] at same
          obtain ⟨rfl, rest⟩ :=
            own y _ _ first (Text.stops_later notDigit) (Text.stops_later notDigit) same
          obtain ⟨rfl, ends⟩ := ih others later rest
          exact ⟨rfl, ends⟩

/-- A list up to the letter that closes it, where no chunk starts with that letter. -/
theorem Text.listed_unique (notComma : close ≠ ',') (notDigit : close.isDigit = false)
    (fresh : ∀ x, good x → ∀ t u, chunk x ++ t ≠ .char close :: u)
    (determined : ∀ x ∈ xs, good x ∧ Text.Determined chunk good x) (all : ∀ y ∈ ys, good y)
    (same : Text.listed chunk xs ++ .char close :: r = Text.listed chunk ys ++ .char close :: s) :
    xs = ys ∧ r = s := by
  have opens {z : α} {zs : List α} {u : Text} : Text.listed chunk (z :: zs) ++ .char close :: u =
      chunk z ++ ((zs.flatMap fun y => .char ',' :: chunk y) ++ .char close :: u) := by
    rw [Text.listed, List.append_assoc]
  cases xs with
  | nil =>
      cases ys with
      | nil => exact ⟨rfl, (List.cons.inj same).2⟩
      | cons y ys =>
          rw [opens] at same
          exact absurd same.symm (fresh y (all y List.mem_cons_self) _ _)
  | cons x xs =>
      obtain ⟨⟨plain, own⟩, others⟩ := List.forall_mem_cons.mp determined
      rw [opens] at same
      cases ys with
      | nil => exact absurd same (fresh x plain _ _)
      | cons y ys =>
          obtain ⟨first, later⟩ := List.forall_mem_cons.mp all
          rw [opens] at same
          obtain ⟨rfl, rest⟩ :=
            own y _ _ first (Text.stops_later notDigit) (Text.stops_later notDigit) same
          obtain ⟨rfl, ends⟩ :=
            Text.later_unique notComma notDigit (fun x member => (others x member).2) later rest
          exact ⟨rfl, ends⟩

end

namespace Json

def isVerbatim (l : Letter) : Bool := decide (escapeLetter l = [l])

theorem isVerbatim_char {c : Char} (above : 0x20 ≤ c.toNat) (below : c.toNat < 0x7F)
    (notQuote : c.toNat ≠ 34) (notBackslash : c.toNat ≠ 92) : isVerbatim (.char c) = true := by
  have other (d : Char) (n : Nat) (code : d.toNat = n) (differs : c.toNat ≠ n) : c ≠ d := by
    intro same
    exact differs (by rw [same, code])
  have quote := other '"' 34 rfl notQuote
  have backslash := other '\\' 92 rfl notBackslash
  have lineFeed := other '\n' 10 rfl (by omega)
  have carriageReturn := other '\r' 13 rfl (by omega)
  have tab := other '\t' 9 rfl (by omega)
  have formFeed := other '\x0c' 12 rfl (by omega)
  have backspace := other '\x08' 8 rfl (by omega)
  rw [isVerbatim, decide_eq_true_eq, escapeLetter, escapeChar, if_neg quote, if_neg backslash,
    if_neg lineFeed, if_neg carriageReturn, if_neg tab, if_neg formFeed, if_neg backspace,
    if_pos ⟨above, below⟩]

/-- Natural numbers, texts without escapes, and arrays and objects of such values. -/
inductive Plain : Json → Prop
  | int {n : Nat} : Plain (.int n)
  | str {s : Text} (verbatim : ∀ l ∈ s, isVerbatim l = true) : Plain (.str s)
  | arr {items : List Json} (all : ∀ item ∈ items, Plain item) : Plain (.arr items)
  | obj {members : List (Text × Json)} (names : ∀ m ∈ members, ∀ l ∈ m.1, isVerbatim l = true)
      (values : ∀ m ∈ members, Plain m.2) : Plain (.obj members)

def PlainMember (m : Text × Json) : Prop := (∀ l ∈ m.1, isVerbatim l = true) ∧ Plain m.2

theorem plainMember {name : Text} {value : Json} (verbatim : name.all isVerbatim = true)
    (plain : Plain value) : PlainMember (name, value) :=
  ⟨List.all_eq_true.mp verbatim, plain⟩

theorem plain_obj {members : List (Text × Json)} (each : ∀ m ∈ members, PlainMember m) :
    Plain (.obj members) :=
  .obj (fun m member => (each m member).1) fun m member => (each m member).2

/-! ## Compact texts -/

section
variable {a b : Json} {s t r u : Text} {depth : Nat}

theorem stringText_of_verbatim (verbatim : ∀ l ∈ s, isVerbatim l = true) :
    stringText s = .char '"' :: (s ++ [.char '"']) := by
  have plain : s.flatMap escapeLetter = s := by
    induction s with
    | nil => rfl
    | cons l s ih =>
        obtain ⟨own, others⟩ := List.forall_mem_cons.mp verbatim
        rw [List.flatMap_cons, of_decide_eq_true own, ih others]
        rfl
  rw [stringText, plain]
  rfl

theorem stringText_unique (left : ∀ l ∈ s, isVerbatim l = true)
    (right : ∀ l ∈ t, isVerbatim l = true) (same : stringText s ++ r = stringText t ++ u) :
    s = t ∧ r = u := by
  have quote {v : Text} : Text.Stops isVerbatim (.char '"' :: v) :=
    Text.stops_cons.mpr (by decide)
  rw [stringText_of_verbatim left, stringText_of_verbatim right] at same
  simp only [List.cons_append, List.append_assoc, List.cons.injEq, true_and, List.nil_append]
    at same
  obtain ⟨whole, rest⟩ := Text.pieces_unique left right quote quote same
  exact ⟨whole, (List.cons.inj rest).2⟩

def memberText (depth : Nat) (m : Text × Json) : Text :=
  stringText m.1 ++ .char ':' :: text .compact depth m.2

theorem itemsText_compact (items : List Json) : itemsText .compact depth items =
    items.flatMap fun item => .char ',' :: text .compact depth item := by
  induction items with
  | nil => rfl
  | cons item items ih =>
      rw [itemsText, ih, List.flatMap_cons]
      rfl

theorem membersText_compact (members : List (Text × Json)) : membersText .compact depth members =
    members.flatMap fun m => .char ',' :: memberText depth m := by
  induction members with
  | nil => rfl
  | cons m members ih =>
      rw [membersText, ih, List.flatMap_cons]
      simp only [memberText, List.cons_append, List.append_assoc]
      rfl

theorem text_arr (items : List Json) : text .compact depth (.arr items) =
    .char '[' :: (Text.listed (text .compact (depth + 1)) items ++ [.char ']']) := by
  cases items with
  | nil => rfl
  | cons item items =>
      rw [text, itemsText_compact, Text.listed, List.append_assoc]
      rfl

theorem text_obj (members : List (Text × Json)) : text .compact depth (.obj members) =
    .char '\x7b' :: (Text.listed (memberText (depth + 1)) members ++ [.char '\x7d']) := by
  cases members with
  | nil => rfl
  | cons m members =>
      rw [text, membersText_compact, Text.listed]
      simp only [memberText, List.append_assoc]
      rfl

/-! ## The kind of a value -/

/-- The first letter of a plain value, where `0` stands for all digits. -/
def opening : Json → Char
  | .int _ => '0'
  | .str _ => '"'
  | .arr _ => '['
  | .obj _ => '\x7b'
  | _ => ' '

def lead (t : Text) : Option Letter :=
  t.head?.map fun l => if Text.isWesternDigit l then .char '0' else l

theorem Plain.lead_text (plain : Plain a) :
    lead (text .compact depth a ++ r) = some (.char (opening a)) := by
  cases plain with
  | @int n =>
      obtain ⟨c, rest, shape, digit, -⟩ := Text.exists_ofNat n
      have first : Text.isWesternDigit (.char c) = true := digit
      rw [text, Text.ofInt_natCast, shape]
      simp [lead, first, opening]
  | str verbatim =>
      rw [text]
      rfl
  | arr all =>
      rw [text_arr]
      rfl
  | obj names values =>
      rw [text_obj]
      rfl

theorem opening_eq (left : Plain a) (right : Plain b)
    (same : text .compact depth a ++ r = text .compact depth b ++ s) : opening a = opening b := by
  have leads := congrArg lead same
  rw [left.lead_text, right.lead_text] at leads
  exact Letter.char.inj (Option.some.inj leads)

theorem Plain.not_closing (plain : Plain a) :
    text .compact depth a ++ t ≠ .char ']' :: u := by
  intro same
  have leads := congrArg lead same
  rw [plain.lead_text] at leads
  cases plain <;> simp [opening, lead, Text.isWesternDigit, Letter.satisfies] at leads

theorem memberText_not_closing {m : Text × Json} :
    memberText depth m ++ t ≠ .char '\x7d' :: u := by
  intro same
  simp [memberText, stringText] at same

theorem memberText_determined {m : Text × Json} (name : ∀ l ∈ m.1, isVerbatim l = true)
    (value : Text.Determined (text .compact depth) Plain m.2) :
    Text.Determined (memberText depth) PlainMember m := by
  intro other r s plain stops ends same
  obtain ⟨otherName, right⟩ := plain
  simp only [memberText, List.append_assoc, List.cons_append] at same
  obtain ⟨names, rest⟩ := stringText_unique name otherName same
  obtain ⟨values, left⟩ := value _ _ _ right stops ends (List.cons.inj rest).2
  exact ⟨Prod.ext names values, left⟩

/-- The compact text of a plain value determines the value and its own end. -/
theorem Plain.determined (plain : Plain a) :
    ∀ depth, Text.Determined (text .compact depth) Plain a := by
  induction plain with
  | @int n =>
      intro depth b r s right stops other same
      have kinds := opening_eq .int right same
      cases right with
      | @int m =>
          rw [text, text, Text.ofInt_natCast, Text.ofInt_natCast] at same
          have digits (k : Nat) (l : Letter) := Text.isWesternDigit_of_mem_ofNat (n := k) (l := l)
          obtain ⟨numeral, rest⟩ := Text.pieces_unique (digits n) (digits m) stops other same
          rw [Text.ofNat_injective numeral]
          exact ⟨rfl, rest⟩
      | _ => simp [opening] at kinds
  | @str t verbatim =>
      intro depth b r s right stops other same
      have kinds := opening_eq (.str verbatim) right same
      cases right with
      | str verbatims =>
          rw [text, text] at same
          obtain ⟨rfl, rest⟩ := stringText_unique verbatim verbatims same
          exact ⟨rfl, rest⟩
      | _ => simp [opening] at kinds
  | @arr items all ih =>
      intro depth b r s right stops other same
      have kinds := opening_eq (.arr all) right same
      cases right with
      | arr others =>
          rw [text_arr, text_arr] at same
          simp only [List.cons_append, List.append_assoc, List.nil_append, List.cons.injEq,
            true_and] at same
          obtain ⟨rfl, rest⟩ := Text.listed_unique (by decide) (by decide)
            (fun x plain t u => plain.not_closing) (fun x member => ⟨all x member, ih x member _⟩)
            others same
          exact ⟨rfl, rest⟩
      | _ => simp [opening] at kinds
  | @obj members names values ih =>
      intro depth b r s right stops other same
      have kinds := opening_eq (.obj names values) right same
      cases right with
      | obj otherNames others =>
          rw [text_obj, text_obj] at same
          simp only [List.cons_append, List.append_assoc, List.nil_append, List.cons.injEq,
            true_and] at same
          have determined (m : Text × Json) (member : m ∈ members) :=
            memberText_determined (names m member) (ih m member (depth + 1))
          obtain ⟨rfl, rest⟩ := Text.listed_unique (by decide) (by decide)
            (fun m plain t u => memberText_not_closing)
            (fun m member => ⟨⟨names m member, values m member⟩, determined m member⟩)
            (fun m member => ⟨otherNames m member, others m member⟩) same
          exact ⟨rfl, rest⟩
      | _ => simp [opening] at kinds

theorem Plain.write_inj (left : Plain a) (right : Plain b)
    (same : a.write .compact = b.write .compact) : a = b := by
  have whole : text .compact 0 a ++ [] = text .compact 0 b ++ [] := congrArg (· ++ []) same
  exact (left.determined 0 b [] [] right Text.stops_nil Text.stops_nil whole).1

end
end Json
end SchemaHistory
