import Intension.Context.Digest
import Intension.Proofs.Context.Spelling
import Intension.Proofs.Grammar.Spelling
import Intension.Proofs.Reachable
import Intension.Proofs.Text.Utf8

/-!
# Intension.Proofs.Context.Label

The text of a context is a label of it: contexts that are written alike are equal.
This goes beyond what is read back, for infinities and NaN are written as words,
which the grammar takes for names.  Still the first token of a scalar tells which
one it is (`Scalar.ofFront?`), and the tokens of a text tell where each part of it
ends, whatever follows (`Valid.beq_of_text_append`).  What hashes alike is equal,
too, or two texts have one hash.
-/

namespace Intension

open Std

/-- A text has one first token, and one rest after it. -/
theorem Token.CutFrom.unique {token token' : Token} {t rest rest' : Text}
    (h : CutFrom token t rest) (h' : CutFrom token' t rest') : token = token' ∧ rest = rest' := by
  obtain ⟨c, more, width, rfl, -, hnext⟩ := h
  obtain ⟨c', more', width', heq, -, hnext'⟩ := h'
  cases heq
  cases hnext.symm.trans hnext'
  exact ⟨rfl, rfl⟩

/-! ## scalars -/

namespace Scalar

/-- The first token of the text of a scalar, and what is left of the text after it.  Only minus
infinity is more than one token, a dash and a word. -/
def front : Scalar → Token × Text
  | number x =>
    if x.isNaN then (.identifier "NaN".toList, [])
    else if x.isFinite then (.numeral x.text, [])
    else if x.isNegative then (.dashes 1, "inf".toList)
    else (.identifier "inf".toList, [])
  | v => (v.token, [])

/-- The scalar whose text starts with a token, and what is left of the text. -/
def ofFront? : Token → Option (Scalar × Text)
  | .dashes _ => some (number (.infinity true), "inf".toList)
  | .identifier t =>
    some (number (if t = "inf".toList then .infinity false else .nan false), [])
  | token => (ofToken? token).map (·, [])

/-- The text of an infinity tells its sign. -/
theorem text_of_infinite {x : Number} (hnan : x.isNaN = false) (hfinite : x.isFinite = false) :
    x.text = if x.isNegative then '-' :: "inf".toList else "inf".toList := by
  have hzero : x.magnitude ≠ 0 := by
    intro hzero
    rw [Number.isFinite, hzero] at hfinite
    exact absurd hfinite (by decide)
  rw [Number.text, hnan, if_neg Bool.false_ne_true, Number.unsignedText, if_neg hzero, hfinite,
    if_neg Bool.false_ne_true]

/-- Every scalar is cut from the front of a text by its first token. -/
theorem cutFrom_front (v : Scalar) {rest : Text} (hrest : Delimited rest) :
    Token.CutFrom v.front.1 (v.text ++ rest) (v.front.2 ++ rest) := by
  cases v with
  | number x =>
    rw [front, text]
    cases hnan : x.isNaN with
    | true =>
      have htext : x.text = "NaN".toList := by rw [Number.text, hnan, if_pos rfl]
      rw [if_pos rfl, htext]
      exact Token.cutFrom_identifier rfl hrest
    | false =>
      rw [if_neg Bool.false_ne_true]
      cases hfinite : x.isFinite with
      | true => exact Token.cutFrom_number hfinite hrest
      | false =>
        rw [if_neg Bool.false_ne_true, text_of_infinite hnan hfinite]
        cases x.isNegative with
        | true => exact ⟨'-', _, 1, rfl, rfl, rfl⟩
        | false => exact Token.cutFrom_identifier rfl hrest
  | _ => exact cutFrom_text (by trivial) hrest

/-- **The first token tells the scalar.** -/
theorem exists_ofFront?_front (v : Scalar) : ∃ w, ofFront? v.front.1 = some (w, v.front.2) ∧
    w == v := by
  cases v with
  | number x =>
    rw [front]
    cases hnan : x.isNaN with
    | true =>
      refine ⟨_, rfl, compare_eq_iff_beq.1 ?_⟩
      rw [compare_number_of_isNaN hnan]
      rfl
    | false =>
      cases hfinite : x.isFinite with
      | true =>
        have hread := ofToken?_token (v := number x) hfinite
        exact ⟨number x, congrArg (Option.map (·, [])) hread, BEq.rfl⟩
      | false =>
        have hx : x = .infinity x.isNegative := by
          have hmagnitude : x.magnitude = Number.infiniteMagnitude := by
            simp [Number.isNaN, Number.isFinite] at hnan hfinite
            omega
          rw [Number.infinity, ← hmagnitude, Number.ofMagnitude_magnitude]
        cases hnegative : x.isNegative with
        | true => exact ⟨_, rfl, by rw [hx, hnegative]; exact BEq.rfl⟩
        | false => exact ⟨_, rfl, by rw [hx, hnegative]; exact BEq.rfl⟩
  | bound b => exact ⟨_, rfl, repacked_beq none (bound b)⟩
  | _ => exact ⟨_, rfl, BEq.rfl⟩

/-- Scalars with the same first token are equal, and as much is left of either. -/
theorem beq_of_front {v w : Scalar} (h : v.front.1 = w.front.1) :
    v == w ∧ v.front.2 = w.front.2 := by
  obtain ⟨v', hv, hbeq⟩ := exists_ofFront?_front v
  obtain ⟨w', hw, hbeq'⟩ := exists_ofFront?_front w
  rw [h, hw, Option.some.injEq, Prod.mk.injEq] at hv
  obtain ⟨rfl, hleft⟩ := hv
  exact ⟨BEq.trans (BEq.symm hbeq) hbeq', hleft.symm⟩

/-- Scalars that are written alike before a delimiter are equal, whatever comes then. -/
theorem beq_of_text_append {v w : Scalar} {r s : Text} (hr : Delimited r) (hs : Delimited s)
    (h : v.text ++ r = w.text ++ s) : v == w ∧ r = s := by
  obtain ⟨htoken, hrest⟩ := (v.cutFrom_front hr).unique (h ▸ w.cutFrom_front hs)
  obtain ⟨hbeq, hleft⟩ := beq_of_front htoken
  rw [hleft] at hrest
  exact ⟨hbeq, List.append_cancel_left hrest⟩

end Scalar

/-! ## dimensions -/

namespace Dimension

/-- Dimensions that are written alike before their colons are equal, whatever comes then. -/
theorem beq_of_text_append {d e : Dimension} {r s : Text}
    (h : d.text ++ ':' :: r = e.text ++ ':' :: s) : d == e ∧ r = s := by
  have hcolon (t : Text) : Delimited (':' :: t) := Token.delimited_cons (.inl rfl) t
  obtain ⟨htoken, hrest⟩ := (d.cutFrom_text (hcolon r)).unique (h ▸ e.cutFrom_text (hcolon s))
  have hrespelled : d.respelled = e.respelled := by
    have hread := ofToken_token d
    rw [htoken, ofToken_token e] at hread
    exact (Except.ok.inj hread).symm
  exact ⟨BEq.trans (BEq.symm d.respelled_beq) (hrespelled ▸ e.respelled_beq),
    List.tail_eq_of_cons_eq hrest⟩

/-- A dimension is written as a single token. -/
theorem ofFront?_token {d : Dimension} {v : Scalar} {left : Text}
    (h : Scalar.ofFront? d.token = some (v, left)) : left = [] := by
  cases d with
  | integer i =>
    change (Scalar.ofToken? (integer i).token).map (·, []) = some (v, left) at h
    obtain ⟨w, -, hw⟩ := Option.map_eq_some_iff.1 h
    exact (congrArg Prod.snd hw).symm
  | name t quoted =>
    rw [token] at h
    split at h <;> exact (congrArg Prod.snd (Option.some.inj h)).symm

/-- After a dimension there comes a colon, and after a scalar there never does: only minus
infinity is no single token, and its first one is not that of a dimension. -/
theorem text_append_ne {d : Dimension} {v : Scalar} {r s : Text} (hr : Delimited r)
    (hcolon : r.head? ≠ some ':') : v.text ++ r ≠ d.text ++ ':' :: s := by
  intro h
  obtain ⟨htoken, hrest⟩ := (v.cutFrom_front hr).unique
    (h ▸ d.cutFrom_text (Token.delimited_cons (.inl rfl) s))
  obtain ⟨w, hw, -⟩ := v.exists_ofFront?_front
  have hempty : v.front.2 = [] := ofFront?_token (htoken ▸ hw)
  rw [hempty, List.nil_append] at hrest
  exact hcolon (by rw [hrest]; rfl)

end Dimension

/-! ## contexts -/

namespace Context

/-- The text of a node from after its first term on: the other children, each after a plus, the
closing bracket, and what follows it. -/
def closing (children : List (Dimension × Context)) (rest : Text) : Text :=
  match children with
  | [] => '>' :: rest
  | (d, c) :: more => '+' :: (d.text ++ ':' :: (c.text ++ closing more rest))

/-- The text of a node from after its opening bracket on. -/
def opened (base : Option Scalar) (children : List (Dimension × Context)) (rest : Text) : Text :=
  match base, children with
  | some v, children => v.text ++ closing children rest
  | none, [] => '>' :: rest
  | none, (d, c) :: more => d.text ++ ':' :: (c.text ++ closing more rest)

/-- What comes after a term delimits it. -/
theorem delimited_closing (children : List (Dimension × Context)) (rest : Text) :
    Delimited (closing children rest) := by
  cases children with
  | nil => exact Token.delimited_cons (by simp) _
  | cons e more => exact Token.delimited_cons (by simp) _

/-- What comes after a term is no colon. -/
theorem head?_closing (children : List (Dimension × Context)) (rest : Text) :
    (closing children rest).head? ≠ some ':' := by
  cases children with
  | nil => simp [closing]
  | cons e more => simp [closing]

/-- Terms that are joined and closed are the first one and what comes after it. -/
theorem joinTerms_append (t : Text) (children : List (Dimension × Context)) (rest : Text) :
    Text.joinTerms (t :: children.map fun e => e.1.text ++ ':' :: e.2.text) ++ '>' :: rest =
      t ++ closing children rest := by
  induction children generalizing t with
  | nil => simp [Text.joinTerms, List.intercalate, closing]
  | cons e more ih =>
    rw [List.map_cons, Text.joinTerms_cons (List.cons_ne_nil _ _), List.append_assoc,
      List.cons_append, ih, closing]
    simp

/-- The text of a context is its opening bracket and what comes after it. -/
theorem text_append (c : Context) (rest : Text) :
    c.text ++ rest = '<' :: opened c.base c.children rest := by
  rw [text_eq, angled, List.cons_append, List.append_assoc, List.singleton_append]
  refine congrArg ('<' :: ·) ?_
  cases hbase : c.base with
  | some v => exact joinTerms_append v.text c.children rest
  | none =>
    cases hchildren : c.children with
    | nil => rfl
    | cons e more =>
      refine (joinTerms_append (e.1.text ++ ':' :: e.2.text) more rest).trans ?_
      rw [opened]
      simp

/-- A bracket closes, or a child comes. -/
theorem closing_ne_text_append {d : Dimension} {r s : Text} : '>' :: r ≠ d.text ++ ':' :: s := by
  intro h
  obtain ⟨htoken, -⟩ := (Token.cutFrom_punctuation (c := '>') rfl r).unique
    (h ▸ d.cutFrom_text (Token.delimited_cons (.inl rfl) s))
  cases d with
  | integer i => cases htoken
  | name t quoted =>
    rw [Dimension.token] at htoken
    split at htoken <;> cases htoken

/-- Where the two contexts are written alike, whatever comes after them, they are equal and the
same comes after them. -/
def Distinguished (a b : Context) : Prop :=
  ∀ r s : Text, a.text ++ r = b.text ++ s → cmp a b = .eq ∧ r = s

/-- Children that are written alike have equal dimensions and are equal. -/
theorem Distinguished.of_child {c k : Context} (h : Distinguished c k) {d e : Dimension}
    {r s : Text} (heq : d.text ++ ':' :: (c.text ++ r) = e.text ++ ':' :: (k.text ++ s)) :
    (d == e ∧ cmp c k = .eq) ∧ r = s := by
  obtain ⟨hdim, htext⟩ := Dimension.beq_of_text_append heq
  obtain ⟨hchild, hrest⟩ := h _ _ htext
  exact ⟨⟨hdim, hchild⟩, hrest⟩

variable {l m : List (Dimension × Context)} {r s : Text}

/-- Lists of children that are written alike are equal one by one, and the same comes after them. -/
theorem forall₂_of_closing_eq (h : ∀ e ∈ l, ∀ k ∈ m, Distinguished e.2 k.2)
    (heq : closing l r = closing m s) :
    List.Forall₂ (fun e k => e.1 == k.1 ∧ cmp e.2 k.2 = .eq) l m ∧ r = s := by
  induction l generalizing m with
  | nil =>
    cases m with
    | nil => exact ⟨.nil, List.tail_eq_of_cons_eq heq⟩
    | cons k m => cases heq
  | cons e l ih =>
    cases m with
    | nil => cases heq
    | cons k m =>
      have hfirst : Distinguished e.2 k.2 := h e List.mem_cons_self k List.mem_cons_self
      obtain ⟨hek, hclosing⟩ := hfirst.of_child (List.tail_eq_of_cons_eq heq)
      obtain ⟨hpairs, hrest⟩ := ih (fun x hx y hy =>
        h x (List.mem_cons_of_mem _ hx) y (List.mem_cons_of_mem _ hy)) hclosing
      exact ⟨.cons hek hpairs, hrest⟩

/-- A base does not read like a first child or a closing bracket. -/
theorem text_closing_ne_opened (v : Scalar) :
    v.text ++ closing l r ≠ opened none m s := by
  cases m with
  | nil =>
    intro heq
    have hbracket : Token.CutFrom .closeAngle (opened none [] s) s :=
      Token.cutFrom_punctuation rfl s
    obtain ⟨htoken, -⟩ := (v.cutFrom_front (delimited_closing l r)).unique (heq ▸ hbracket)
    obtain ⟨w, hw, -⟩ := v.exists_ofFront?_front
    rw [htoken] at hw
    cases hw
  | cons k m => exact Dimension.text_append_ne (delimited_closing l r) (head?_closing l r)

/-- After the opening bracket the text tells the base and the children. -/
theorem of_opened_eq {base base' : Option Scalar}
    (h : ∀ e ∈ l, ∀ k ∈ m, Distinguished e.2 k.2)
    (heq : opened base l r = opened base' m s) :
    base == base' ∧ List.Forall₂ (fun e k => e.1 == k.1 ∧ cmp e.2 k.2 = .eq) l m ∧ r = s := by
  cases base with
  | some v =>
    cases base' with
    | some w =>
      obtain ⟨hbase, hclosing⟩ := Scalar.beq_of_text_append (delimited_closing l r)
        (delimited_closing m s) heq
      exact ⟨hbase, forall₂_of_closing_eq h hclosing⟩
    | none => exact absurd heq (text_closing_ne_opened v)
  | none =>
    cases base' with
    | some w => exact absurd heq.symm (text_closing_ne_opened w)
    | none =>
      cases l with
      | nil =>
        cases m with
        | nil => exact ⟨rfl, .nil, List.tail_eq_of_cons_eq heq⟩
        | cons k m => exact absurd heq closing_ne_text_append
      | cons e l =>
        cases m with
        | nil => exact absurd heq.symm closing_ne_text_append
        | cons k m =>
          -- with a plus before them, first children are like all others
          exact ⟨rfl, forall₂_of_closing_eq h (congrArg ('+' :: ·) heq)⟩

/-- **Contexts that are written alike are equal**, whatever comes after them. -/
theorem Valid.distinguished {a b : Context} (ha : a.Valid) (hb : b.Valid) :
    Distinguished a b := by
  induction ha generalizing b with
  | @intro a sorted count nonempty inner ih =>
    intro r s heq
    rw [text_append, text_append] at heq
    obtain ⟨hbase, hpairs, hrest⟩ := of_opened_eq (fun e he k hk => ih e he (hb.inner k hk))
      (List.tail_eq_of_cons_eq heq)
    exact ⟨(cmp_eq_eq_iff (.intro sorted count nonempty inner) hb).2 ⟨hbase, hpairs⟩, hrest⟩

/-- **Contexts with one text are equal**. -/
theorem Valid.beq_of_text_eq {a b : Context} (ha : a.Valid) (hb : b.Valid) (h : a.text = b.text) :
    a == b :=
  compare_eq_eq_iff.1 (ha.distinguished hb [] [] (congrArg (· ++ []) h)).1

/-! ## digests -/

/-- The hexadecimal digits tell the hash. -/
theorem hash_eq_of_digest_eq {a b : Context} (h : a.digest = b.digest) :
    Sha256.hash a.text.bytes = Sha256.hash b.text.bytes := by
  have hdecode := congrArg Hex.decode h
  rw [digest, digest, Hex.decode_encode, Hex.decode_encode] at hdecode
  exact Except.ok.inj hdecode

/-- **The text of a context is a faithful label**: contexts that are written alike are equal,
whatever numbers they hold, and unequal contexts that have one digest are two messages that have
one hash. -/
theorem text_faithful {a b : Context} (ha : a.Reachable) (hb : b.Reachable) :
    (a.text = b.text → a == b) ∧
    (a.digest = b.digest → ¬ a == b → a.text.bytes ≠ b.text.bytes ∧
      Sha256.hash a.text.bytes = Sha256.hash b.text.bytes) := by
  refine ⟨ha.valid.beq_of_text_eq hb.valid, fun hdigest hne => ⟨fun hbytes => hne ?_,
    hash_eq_of_digest_eq hdigest⟩⟩
  have hdecode := congrArg Utf8.decode hbytes
  rw [Utf8.decode_bytes, Utf8.decode_bytes] at hdecode
  exact ha.valid.beq_of_text_eq hb.valid (Except.ok.inj hdecode)

/-- Words for numbers beside a name that is such a word, and a string made of what ends tokens.
The first two contexts hold different NaNs and are written alike; the third one has a string for
the infinity. -/
theorem text_faithful_past_words :
    let build (v w : Scalar) : Context :=
      ((empty.setBaseAt [] v).setBaseAt [.name "inf".toList false] w).setBaseAt [.integer 1]
        (.string "+1:<\"\n".toList)
    let a := build (.number (.nan false)) (.number (.infinity true))
    let b := build (.number (.nan true)) (.number (.infinity true))
    let c := build (.number (.nan false)) (.string "-inf".toList)
    a.text = "<NaN+1:<\"+1:<\\\"\\n\">+inf:<-inf>>".toList ∧ a == b ∧ a.text ≠ c.text ∧
      (a.digest = c.digest → a.text.bytes ≠ c.text.bytes ∧
        Sha256.hash a.text.bytes = Sha256.hash c.text.bytes) := by
  intro build a b c
  have hbuild (v w : Scalar) : (build v w).Reachable :=
    .setBaseAt (.setBaseAt (.setBaseAt .empty _ _) _ _) _ _
  have hac : ¬ a == c := by decide +kernel
  obtain ⟨halike, -⟩ := text_faithful (hbuild (.number (.nan false)) (.number (.infinity true)))
    (hbuild (.number (.nan true)) (.number (.infinity true)))
  obtain ⟨hunlike, hcollision⟩ := text_faithful
    (hbuild (.number (.nan false)) (.number (.infinity true)))
    (hbuild (.number (.nan false)) (.string "-inf".toList))
  exact ⟨by decide +kernel, halike (by decide +kernel), fun htext => hac (hunlike htext),
    fun hdigest => hcollision hdigest hac⟩

end Context

end Intension
