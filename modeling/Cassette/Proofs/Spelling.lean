import Cassette.Json.Printer
import Mathlib.Data.List.Chain
import Mathlib.Tactic.FinCases
import Mathlib.Tactic.IntervalCases

/-! Spelled values are read back. A text that reads as tokens on its own reads as them also
before a rest that no number goes on with, so tokens may be spelled one after the other with
blanks at will, and the reader of values closes every array and object where it was opened.
What a value is printed as, compact or laid out, is spelled that way. -/

namespace Cassette.Json

def Breaks (text : List Char) : Prop :=
  ∀ c ∈ text.head?, ∀ stage : NumberStage, stage.next c = none

namespace Token

def isNumber : Token → Bool
  | number _ => true
  | _ => false

def endsValue : Token → Bool
  | comma | closeArray | closeObject => true
  | _ => false

def Legible (t : Token) : Prop := tokens? t.spell = some [t]

end Token

/-- No number stands right before a token that could be taken for more of it. -/
def Parted (tokens : List Token) : Prop :=
  tokens.IsChain fun t u => t.isNumber → u.endsValue

theorem Parted.cons_token {t : Token} {ts : List Token} (h : Parted ts) (hn : t.isNumber = false) :
    Parted (t :: ts) :=
  List.isChain_cons.2 ⟨fun _ _ ht => by simp [hn] at ht, h⟩

/-- Tokens in their own spelling, with blanks before, between and after them. -/
inductive Spaced : List Token → List Char → Prop
  | done : Spaced [] []
  | blank {ts : List Token} {text : List Char} (c : Char) (h : isBlank c)
      (hs : Spaced ts text) : Spaced ts (c :: text)
  | token {ts : List Token} {text : List Char} (t : Token) (hs : Spaced ts text) :
      Spaced (t :: ts) (t.spell ++ text)

theorem Spaced.newLine {ts : List Token} {text : List Char} (h : Spaced ts text) (level : Nat) :
    Spaced ts (Value.newLine level ++ text) := by
  refine .blank '\n' rfl ?_
  induction 2 * level with
  | zero => exact h
  | succ n ih => exact ih.blank ' ' rfl

/-! ### Reading in parts -/

namespace Reading

/-- A reading that may end has its last token before any rest, too. -/
theorem run_finish {r : Reading} {ts : List Token} {rest : List Char} (h : r.finish = some ts)
    (hb : ∀ t ∈ ts, t.isNumber → Breaks rest) : run r rest = (run gap rest).map (ts ++ ·) := by
  match r, rest with
  | gap, rest =>
    obtain rfl : [] = ts := by simpa [finish] using h
    simp
  | word [] token, [] =>
    obtain rfl : [token] = ts := by simpa [finish] using h
    rfl
  | word [] token, c :: rest =>
    obtain rfl : [token] = ts := by simpa [finish] using h
    simp only [run, step]
    cases begin c <;> simp [Function.comp_def]
  | word (_ :: _) _, _ | string _, _ | escape _, _ | hex _ _ _, _ => simp [finish] at h
  | number stage spelled, [] =>
    rw [run, h]
    simp [run, finish]
  | number stage spelled, c :: rest =>
    simp only [finish, Option.ite_none_right_eq_some, Option.some.injEq] at h
    obtain ⟨hc, rfl⟩ := h
    have hn := hb _ (List.mem_singleton_self _) rfl c rfl stage
    simp only [run, step, hn, hc, if_true]
    cases begin c <;> simp [Function.comp_def]

/-- What a text reads as does not change when a rest follows that it cannot go on with. -/
theorem run_append {text rest : List Char} : ∀ {r : Reading} {ts : List Token},
    run r text = some ts → (∀ t ∈ ts, t.isNumber → Breaks rest) →
      run r (text ++ rest) = (run gap rest).map (ts ++ ·) := by
  induction text with
  | nil => exact run_finish
  | cons c text ih =>
    intro r ts h hb
    simp only [run, List.cons_append] at h ⊢
    cases hs : r.step c with
    | none => simp [hs] at h
    | some out =>
      simp only [hs, Option.map_eq_some_iff] at h ⊢
      obtain ⟨vs, hv, rfl⟩ := h
      rw [ih hv fun t ht => hb t (List.mem_append_right _ ht), Option.map_map]
      simp [Function.comp_def]

theorem run_blank {c : Char} (h : isBlank c) (rest : List Char) :
    run gap (c :: rest) = run gap rest := by
  simp [run, step, begin, h]

end Reading

theorem blank_breaks {c : Char} (h : isBlank c) (text : List Char) : Breaks (c :: text) := by
  simp only [isBlank, Bool.or_eq_true, beq_iff_eq] at h
  rintro _ ⟨⟩ stage
  obtain ((rfl | rfl) | rfl) | rfl := h <;> cases stage <;> rfl

theorem Spaced.breaks {ts : List Token} {text : List Char} (h : Spaced ts text)
    (he : ∀ t ∈ ts.head?, t.endsValue) : Breaks text := by
  cases h with
  | done => rintro _ ⟨⟩
  | blank c hc _ => exact blank_breaks hc _
  | token t _ =>
    have ht := he t rfl
    rintro _ hc stage
    cases t <;> simp only [Token.endsValue, Bool.false_eq_true] at ht <;> cases hc <;>
      cases stage <;> rfl

theorem tokens?_of_spaced {ts : List Token} {text : List Char} (h : Spaced ts text)
    (hl : ∀ t ∈ ts, t.Legible) (hp : Parted ts) : tokens? text = some ts := by
  induction h with
  | done => rfl
  | blank c hc _ ih => exact (Reading.run_blank hc _).trans (ih hl hp)
  | @token ts text t hs ih =>
    rw [Parted, List.isChain_cons] at hp
    -- What stands behind a number ends a value, so the text of it does not go on with the number.
    have hb : ∀ u ∈ [t], u.isNumber → Breaks text := by
      rintro u hu hn
      obtain rfl := List.mem_singleton.1 hu
      exact hs.breaks fun w hw => hp.1 w hw hn
    have hrest : Reading.run .gap text = some ts :=
      ih (fun u hu => hl u (List.mem_cons_of_mem _ hu)) hp.2
    rw [tokens?, Reading.run_append (hl t List.mem_cons_self) hb, hrest]
    rfl

/-! ### Values in tokens -/

namespace Value

theorem itemTokens_endsValue (items : List Value) (rest : List Token) :
    ∀ t ∈ (itemTokens items ++ rest).head?, t.endsValue := by
  cases items <;> rintro _ ⟨⟩ <;> rfl

theorem memberTokens_endsValue (members : List (List Piece × Value)) (rest : List Token) :
    ∀ t ∈ (memberTokens members ++ rest).head?, t.endsValue := by
  rcases members with _ | ⟨⟨_, _⟩, _⟩ <;> rintro _ ⟨⟩ <;> rfl

theorem tokens_array (v : Value) (items : List Value) (rest : List Token) :
    (array (v :: items)).tokens ++ rest =
      .openArray :: (v.tokens ++ (itemTokens items ++ rest)) := by
  simp [tokens]

theorem tokens_object (key : List Piece) (v : Value) (members : List (List Piece × Value))
    (rest : List Token) : (object ((key, v) :: members)).tokens ++ rest =
      .openObject :: .string key :: .colon :: (v.tokens ++ (memberTokens members ++ rest)) := by
  simp [tokens]

theorem itemTokens_cons (v : Value) (items : List Value) (rest : List Token) :
    itemTokens (v :: items) ++ rest = .comma :: (v.tokens ++ (itemTokens items ++ rest)) := by
  simp [itemTokens]

theorem memberTokens_cons (key : List Piece) (v : Value) (members : List (List Piece × Value))
    (rest : List Token) : memberTokens ((key, v) :: members) ++ rest =
      .comma :: .string key :: .colon :: (v.tokens ++ (memberTokens members ++ rest)) := by
  simp [memberTokens]

mutual

theorem parted_tokens : ∀ (v : Value) {rest : List Token}, Parted rest →
    (∀ t ∈ rest.head?, t.endsValue) → Parted (v.tokens ++ rest)
  | null, _, h, _ | bool _, _, h, _ | string _, _, h, _ => h.cons_token rfl
  | number _, _, h, he => List.isChain_cons.2 ⟨fun u hu _ => he u hu, h⟩
  | array [], _, h, _ | object [], _, h, _ => (h.cons_token rfl).cons_token rfl
  | array (v :: items), rest, h, _ => by
    rw [tokens_array]
    have hv := parted_tokens v (parted_itemTokens items h) (itemTokens_endsValue items rest)
    exact hv.cons_token rfl
  | object ((_, v) :: members), rest, h, _ => by
    rw [tokens_object]
    have hv := parted_tokens v (parted_memberTokens members h) (memberTokens_endsValue members rest)
    exact ((hv.cons_token rfl).cons_token rfl).cons_token rfl

theorem parted_itemTokens : ∀ (items : List Value) {rest : List Token}, Parted rest →
    Parted (itemTokens items ++ rest)
  | [], _, h => h.cons_token rfl
  | v :: items, rest, h => by
    rw [itemTokens_cons]
    have hv := parted_tokens v (parted_itemTokens items h) (itemTokens_endsValue items rest)
    exact hv.cons_token rfl

theorem parted_memberTokens : ∀ (members : List (List Piece × Value)) {rest : List Token},
    Parted rest → Parted (memberTokens members ++ rest)
  | [], _, h => h.cons_token rfl
  | (_, v) :: members, rest, h => by
    rw [memberTokens_cons]
    have hv := parted_tokens v (parted_memberTokens members h) (memberTokens_endsValue members rest)
    exact ((hv.cons_token rfl).cons_token rfl).cons_token rfl

end

theorem run_firstItem (v : Value) (stack : List Frame) (rest : List Token) :
    Shape.run (.firstItem stack) (v.tokens ++ rest) =
      Shape.run (.value (.array [] :: stack)) (v.tokens ++ rest) := by
  rcases v with _ | _ | _ | _ | (_ | _) | (_ | ⟨⟨_, _⟩, _⟩) <;> rfl

mutual

theorem run_tokens : ∀ (v : Value) (stack : List Frame) (rest : List Token),
    Shape.run (.value stack) (v.tokens ++ rest) = Shape.run (.after stack v) rest
  | null, _, _ | bool _, _, _ | number _, _, _ | string _, _, _ | array [], _, _
  | object [], _, _ => rfl
  | array (v :: items), stack, rest => by
    calc Shape.run (.value stack) ((array (v :: items)).tokens ++ rest)
      _ = Shape.run (.firstItem stack) (v.tokens ++ (itemTokens items ++ rest)) := by
          rw [tokens_array]; rfl
      _ = Shape.run (.after (.array [] :: stack) v) (itemTokens items ++ rest) := by
          rw [run_firstItem, run_tokens v]
      _ = _ := run_itemTokens items stack [] v rest
  | object ((key, v) :: members), stack, rest => by
    calc Shape.run (.value stack) ((object ((key, v) :: members)).tokens ++ rest)
      _ = Shape.run (.value (.object [] key :: stack))
            (v.tokens ++ (memberTokens members ++ rest)) := by
          rw [tokens_object]; rfl
      _ = Shape.run (.after (.object [] key :: stack) v) (memberTokens members ++ rest) :=
          run_tokens v _ _
      _ = _ := run_memberTokens members stack [] key v rest

theorem run_itemTokens : ∀ (items : List Value) (stack : List Frame) (before : List Value)
    (v : Value) (rest : List Token),
    Shape.run (.after (.array before :: stack) v) (itemTokens items ++ rest) =
      Shape.run (.after stack (.array (before.reverse ++ v :: items))) rest
  | [], stack, before, v, rest => by
    rw [← List.reverse_cons]; rfl
  | w :: items, stack, before, v, rest => by
    calc Shape.run (.after (.array before :: stack) v) (itemTokens (w :: items) ++ rest)
      _ = Shape.run (.value (.array (v :: before) :: stack))
            (w.tokens ++ (itemTokens items ++ rest)) := by
          rw [itemTokens_cons]; rfl
      _ = Shape.run (.after (.array (v :: before) :: stack) w) (itemTokens items ++ rest) :=
          run_tokens w _ _
      _ = _ := by rw [run_itemTokens items stack (v :: before) w rest]; simp

theorem run_memberTokens : ∀ (members : List (List Piece × Value)) (stack : List Frame)
    (before : List (List Piece × Value)) (key : List Piece) (v : Value) (rest : List Token),
    Shape.run (.after (.object before key :: stack) v) (memberTokens members ++ rest) =
      Shape.run (.after stack (.object (before.reverse ++ (key, v) :: members))) rest
  | [], stack, before, key, v, rest => by
    rw [← List.reverse_cons]; rfl
  | (next, w) :: members, stack, before, key, v, rest => by
    calc Shape.run (.after (.object before key :: stack) v)
          (memberTokens ((next, w) :: members) ++ rest)
      _ = Shape.run (.value (.object ((key, v) :: before) next :: stack))
            (w.tokens ++ (memberTokens members ++ rest)) := by
          rw [memberTokens_cons]; rfl
      _ = Shape.run (.after (.object ((key, v) :: before) next :: stack) w)
            (memberTokens members ++ rest) := run_tokens w _ _
      _ = _ := by rw [run_memberTokens members stack ((key, v) :: before) next w rest]; simp

end

theorem ofTokens?_tokens (v : Value) : ofTokens? v.tokens = some v := by
  have h := run_tokens v [] []
  rw [List.append_nil] at h
  simp [ofTokens?, h, Shape.run]

theorem parse?_of_tokens {v : Value} {text : String} (h : tokens? text.toList = some v.tokens) :
    parse? text = some v := by
  simp [parse?, h, ofTokens?_tokens]

def Legible (v : Value) : Prop := ∀ t ∈ v.tokens, t.Legible

/-- Text in which the tokens of a legible value stand with blanks at will is read as the value. -/
theorem parse?_of_spaced {v : Value} {text : String} (h : Spaced v.tokens text.toList)
    (hl : v.Legible) : parse? text = some v := by
  have hp : Parted (v.tokens ++ []) := v.parted_tokens List.isChain_nil nofun
  rw [List.append_nil] at hp
  exact parse?_of_tokens (tokens?_of_spaced h hl hp)

theorem spaced_compact (v : Value) : Spaced v.tokens v.compact.toList := by
  rw [compact, String.toList_ofList]
  induction v.tokens with
  | nil => exact .done
  | cons t ts ih => exact .token t ih

mutual

theorem spaced_layout : ∀ (v : Value) (level : Nat) {rest : List Token} {text : List Char},
    Spaced rest text → Spaced (v.tokens ++ rest) (layout level v ++ text)
  | null, _, _, _, h => h.token .null
  | bool b, _, _, _, h => h.token (.bool b)
  | number lexeme, _, _, _, h => h.token (.number lexeme)
  | string pieces, _, _, _, h => h.token (.string pieces)
  | array [], _, _, _, h => (h.token .closeArray).token .openArray
  | object [], _, _, _, h => (h.token .closeObject).token .openObject
  | array (v :: items), level, rest, text, h => by
    have hv := spaced_layout v (level + 1) (spaced_layoutItems items level h)
    rw [tokens_array]
    simpa [layout, Token.spell] using (hv.newLine (level + 1)).token .openArray
  | object ((key, v) :: members), level, rest, text, h => by
    have hv := spaced_layout v (level + 1) (spaced_layoutMembers members level h)
    rw [tokens_object]
    simpa [layout, Token.spell] using
      (((hv.blank ' ' rfl).token .colon).token (.string key) |>.newLine (level + 1)).token
        .openObject

theorem spaced_layoutItems : ∀ (items : List Value) (level : Nat) {rest : List Token}
    {text : List Char}, Spaced rest text →
      Spaced (itemTokens items ++ rest) (layoutItems level items ++ text)
  | [], level, _, _, h => by
    simpa [layoutItems, itemTokens, Token.spell] using (h.token .closeArray).newLine level
  | v :: items, level, rest, text, h => by
    have hv := spaced_layout v (level + 1) (spaced_layoutItems items level h)
    rw [itemTokens_cons]
    simpa [layoutItems, Token.spell] using (hv.newLine (level + 1)).token .comma

theorem spaced_layoutMembers : ∀ (members : List (List Piece × Value)) (level : Nat)
    {rest : List Token} {text : List Char}, Spaced rest text →
      Spaced (memberTokens members ++ rest) (layoutMembers level members ++ text)
  | [], level, _, _, h => by
    simpa [layoutMembers, memberTokens, Token.spell] using (h.token .closeObject).newLine level
  | (key, v) :: members, level, rest, text, h => by
    have hv := spaced_layout v (level + 1) (spaced_layoutMembers members level h)
    rw [memberTokens_cons]
    simpa [layoutMembers, Token.spell] using
      (((hv.blank ' ' rfl).token .colon).token (.string key) |>.newLine (level + 1)).token .comma

end

theorem spaced_pretty (v : Value) : Spaced v.tokens v.pretty.toList := by
  simpa [pretty] using v.spaced_layout 0 .done

end Value

/-! ### Legible tokens -/

/-- The control characters that a letter stands for. -/
def lettered : List Char := ['\x08', '\x0c', '\n', '\r', '\t']

/-- Any other control character is spelled as the unit it is. -/
def Piece.Legible : Piece → Prop
  | char c => c < ' ' → c ∈ lettered
  | unit _ => True

instance : DecidablePred Piece.Legible
  | .char c => inferInstanceAs (Decidable (c < ' ' → c ∈ lettered))
  | .unit _ => instDecidableTrue

theorem hexValue?_hexDigit : ∀ n < 16, hexValue? (hexDigit n) = some n := by decide

namespace Reading

theorem run_silent {r r' : Reading} {c : Char} (h : r.step c = some ([], r'))
    (rest : List Char) : run r (c :: rest) = run r' rest := by
  simp [run, h]

theorem step_hex {ps : List Piece} {owed value n : Nat} (hn : n < 16) :
    step (hex ps owed value) (hexDigit n) =
      some ([], if owed ≤ 1 then string (.unit (UInt16.ofNat (value * 16 + n)) :: ps)
        else hex ps (owed - 1) (value * 16 + n)) := by
  simp only [step, hexValue?_hexDigit n hn, Option.map_some]
  split <;> rfl

theorem run_spellUnit (ps : List Piece) (u : UInt16) (rest : List Char) :
    run (string ps) (spellUnit u.toNat ++ rest) = run (string (.unit u :: ps)) rest := by
  have hu : (((0 * 16 + u.toNat / 4096 % 16) * 16 + u.toNat / 256 % 16) * 16
      + u.toNat / 16 % 16) * 16 + u.toNat % 16 = u.toNat := by
    have := u.toNat_lt
    omega
  have hd : ∀ n, n % 16 < 16 := fun n => Nat.mod_lt n (by decide)
  calc run (string ps) (spellUnit u.toNat ++ rest)
    _ = run (hex ps 4 0) _ := (run_silent rfl _).trans (run_silent rfl _)
    _ = run (hex ps 3 _) _ := run_silent (step_hex (hd _)) _
    _ = run (hex ps 2 _) _ := run_silent (step_hex (hd _)) _
    _ = run (hex ps 1 _) _ := run_silent (step_hex (hd _)) _
    _ = run (string (.unit (UInt16.ofNat _) :: ps)) rest := run_silent (step_hex (hd _)) _
    _ = run (string (.unit u :: ps)) rest := by rw [hu, UInt16.ofNat_toNat]

theorem run_spell {p : Piece} (h : p.Legible) (ps : List Piece) (rest : List Char) :
    run (string ps) (p.spell ++ rest) = run (string (p :: ps)) rest := by
  cases p with
  | unit u => exact run_spellUnit ps u rest
  | char c =>
    by_cases hc : c ∈ '"' :: '\\' :: lettered
    · fin_cases hc <;> exact (run_silent rfl _).trans (run_silent rfl _)
    · have hlt : ¬ c < ' ' := fun hlt => hc (List.mem_append_right ['"', '\\'] (h hlt))
      have hs : spellChar c = [c] := by simp_all [spellChar, lettered]
      rw [Piece.spell, hs]
      exact run_silent (by simp_all [step]) rest

theorem run_spelled {pieces : List Piece} (h : ∀ p ∈ pieces, p.Legible) (ps : List Piece) :
    run (string ps) (pieces.flatMap Piece.spell ++ ['"']) =
      some [.string (ps.reverse ++ pieces)] := by
  induction pieces generalizing ps with
  | nil => simp [run, step, finish]
  | cons p pieces ih =>
    rw [List.flatMap_cons, List.append_assoc, run_spell (h p List.mem_cons_self),
      ih fun q hq => h q (List.mem_cons_of_mem _ hq)]
    simp

theorem run_toDigits {n : Nat} (hn : 0 < n) (rest : List Char) :
    run gap (Nat.toDigits 10 n ++ rest) =
      run (number .digits (Nat.toDigits 10 n).reverse) rest := by
  induction n using Nat.strongRecOn generalizing rest with
  | _ n ih =>
    by_cases hlt : n < 10
    · rw [Nat.toDigits_of_lt_base hlt]
      interval_cases n <;> exact run_silent rfl rest
    · have hd : (n % 10).digitChar.isDigit :=
        Nat.isDigit_digitChar.trans (decide_eq_true (Nat.mod_lt n (by decide)))
      rw [Nat.toDigits_eq_if (by decide), if_neg hlt, List.append_assoc,
        ih (n / 10) (by omega) (by omega), List.reverse_append]
      exact run_silent (by simp [step, NumberStage.next, hd]) rest

end Reading

namespace Token

theorem legible_string {pieces : List Piece} (h : ∀ p ∈ pieces, p.Legible) :
    (string pieces).Legible :=
  (Reading.run_silent rfl _).trans (Reading.run_spelled h [])

theorem legible_toDigits (n : Nat) : (number (Nat.toDigits 10 n)).Legible := by
  obtain rfl | hn := Nat.eq_zero_or_pos n
  · rfl
  · have h := Reading.run_toDigits hn []
    rw [List.append_nil] at h
    simp [Legible, spell, tokens?, h, Reading.run, Reading.finish, NumberStage.complete]

end Token

namespace Value

theorem legible_memberTokens {members : List (List Piece × Value)}
    (h : ∀ m ∈ members, (∀ p ∈ m.1, p.Legible) ∧ m.2.Legible) :
    ∀ t ∈ memberTokens members, t.Legible := by
  induction members with
  | nil => exact List.forall_mem_singleton.2 rfl
  | cons m members ih =>
    obtain ⟨⟨hkey, hv⟩, hrest⟩ := List.forall_mem_cons.1 h
    simp only [memberTokens, List.forall_mem_cons, List.forall_mem_append]
    exact ⟨rfl, Token.legible_string hkey, rfl, hv, ih hrest⟩

theorem legible_object {members : List (List Piece × Value)}
    (h : ∀ m ∈ members, (∀ p ∈ m.1, p.Legible) ∧ m.2.Legible) : (object members).Legible := by
  cases members with
  | nil => exact List.forall_mem_cons.2 ⟨rfl, List.forall_mem_singleton.2 rfl⟩
  | cons m members =>
    exact List.forall_mem_cons.2 ⟨rfl, (List.forall_mem_cons.1 (legible_memberTokens h)).2⟩

end Value

end Cassette.Json
