import ClassTranscript.Peg.Expr
import ClassTranscript.Proofs.Peg.LinkedForm
import ClassTranscript.Proofs.Peg.Written.CharClass

/-!
# The tokens of written expressions

An expression is written as tokens: quoted texts, classes, the bar between alternatives, and single
characters that stand for themselves. Its written form is theirs one after the other
(`flatMap_tokens`), and it determines them (`eq_of_flatMap_write`), so what is written alike has the
same tokens.
-/

namespace ClassTranscript.Peg

/-- A piece of a written expression. -/
inductive Token where
  /-- An operator, a parenthesis, a space, or a letter of a name. -/
  | plain (c : Char)
  /-- The bar between two alternatives, with the spaces around it. -/
  | bar
  | literal (text : String)
  | char (cls : CharClass)

namespace Token

/-- The written form of a token. -/
def write : Token → List Char
  | .plain c => [c]
  | .bar => [' ', '/', ' ']
  | .literal text => (Text.quote text).toList
  | .char cls => cls.write

/-- A single character begins no other token and does not continue a space to a bar, and a class is
the one that stands for those that are written alike. -/
def Fits : Token → Prop
  | .plain c => c ≠ '"' ∧ c ≠ '\x27' ∧ c ≠ '[' ∧ c ≠ '/'
  | .char cls => cls.merged = cls
  | _ => True

/-- What the first character of a token tells about it. -/
inductive Shape where
  /-- A single character, or a bar. -/
  | mark
  | quoted
  | bracketed
  deriving DecidableEq

/-- The shape of a token. -/
def shape : Token → Shape
  | .plain _ => .mark
  | .bar => .mark
  | .literal _ => .quoted
  | .char _ => .bracketed

/-- The shape of the tokens that begin with a character. -/
def shapeOf (c : Char) : Shape :=
  if c = '"' then .quoted else if c = '\x27' ∨ c = '[' then .bracketed else .mark

theorem exists_write_eq {t : Token} (h : t.Fits) :
  ∃ c s, t.write = c :: s ∧ shapeOf c = t.shape ∧ c ≠ '/'
  := by
  cases t with
  | plain c =>
      obtain ⟨hquote, hsingle, hbracket, hslash⟩ := h
      exact ⟨c, [], rfl, by simp [shapeOf, shape, hquote, hsingle, hbracket], hslash⟩
  | bar => exact ⟨' ', ['/', ' '], rfl, by decide⟩
  | literal text => exact ⟨'"', _, Text.toList_quote text, rfl, by decide⟩
  | char cls =>
      obtain ⟨d, s, heq, ⟨-, rfl⟩ | ⟨-, rfl⟩⟩ := cls.exists_write_eq
      · exact ⟨'\x27', s, heq, rfl, by decide⟩
      · exact ⟨'[', s, heq, rfl, by decide⟩

/-- No text of tokens begins with the character that continues a space to a bar. -/
theorem flatMap_write_ne_slash {ts : List Token} (h : ∀ t ∈ ts, t.Fits) (s : List Char) :
  ts.flatMap write ≠ '/' :: s
  := by
  cases ts with
  | nil => simp
  | cons t ts =>
      obtain ⟨c, rest, heq, -, hslash⟩ := exists_write_eq (h t List.mem_cons_self)
      rw [List.flatMap_cons, heq, List.cons_append]
      intro hs
      apply hslash (List.cons.inj hs).1

/-- The first token of a text, and the text of those after it, are determined. -/
theorem eq_of_write_append {t t' : Token} {ts ts' : List Token} (ht : t.Fits) (ht' : t'.Fits)
    (hts : ∀ u ∈ ts, u.Fits) (hts' : ∀ u ∈ ts', u.Fits)
    (h : t.write ++ ts.flatMap write = t'.write ++ ts'.flatMap write) :
  t = t' ∧ ts.flatMap write = ts'.flatMap write
  := by
  have hshape : t.shape = t'.shape := by
    obtain ⟨c, s, heq, hshape, -⟩ := exists_write_eq ht
    obtain ⟨c', s', heq', hshape', -⟩ := exists_write_eq ht'
    rw [heq, heq'] at h
    rw [← hshape, ← hshape', (List.cons.inj h).1]
  cases t with
  | plain c =>
      cases t' with
      | plain c' =>
          obtain ⟨rfl, hrest⟩ := List.cons.inj h
          exact ⟨rfl, hrest⟩
      | bar =>
          obtain ⟨-, hrest⟩ := List.cons.inj h
          exact absurd hrest (flatMap_write_ne_slash hts _)
      | literal | char => cases hshape
  | bar =>
      cases t' with
      | plain c' =>
          obtain ⟨-, hrest⟩ := List.cons.inj h
          exact absurd hrest.symm (flatMap_write_ne_slash hts' _)
      | bar => exact ⟨rfl, List.append_cancel_left h⟩
      | literal | char => cases hshape
  | literal text =>
      cases t' with
      | literal text' =>
          rw [write, write, Text.toList_quote, Text.toList_quote, List.cons_append,
            List.cons_append, List.append_assoc, List.append_assoc] at h
          obtain ⟨htext, hrest⟩ := Text.eq_of_quoted (List.cons.inj h).2
          exact ⟨congrArg literal (String.toList_injective htext), hrest⟩
      | plain | bar | char => cases hshape
  | char cls =>
      cases t' with
      | char cls' =>
          obtain ⟨hmerged, hrest⟩ := CharClass.merged_eq_of_write h
          rw [show cls.merged = cls from ht, show cls'.merged = cls' from ht'] at hmerged
          exact ⟨congrArg char hmerged, hrest⟩
      | plain | bar | literal => cases hshape

/-- A text determines the tokens that it is written with. -/
theorem eq_of_flatMap_write {ts ts' : List Token} (hts : ∀ t ∈ ts, t.Fits)
    (hts' : ∀ t ∈ ts', t.Fits) (h : ts.flatMap write = ts'.flatMap write) :
  ts = ts'
  := by
  have hne {t : Token} {us : List Token} (hfits : t.Fits) : (t :: us).flatMap write ≠ [] := by
    obtain ⟨c, s, heq, -⟩ := exists_write_eq hfits
    rw [List.flatMap_cons, heq]
    simp
  induction ts generalizing ts' with
  | nil =>
      cases ts' with
      | nil => rfl
      | cons t' ts' => exact absurd h.symm (hne (hts' t' List.mem_cons_self))
  | cons t ts ih =>
      cases ts' with
      | nil => exact absurd h (hne (hts t List.mem_cons_self))
      | cons t' ts' =>
          obtain ⟨ht, hrest⟩ := List.forall_mem_cons.mp hts
          obtain ⟨ht', hrest'⟩ := List.forall_mem_cons.mp hts'
          obtain ⟨heq, htexts⟩ := eq_of_write_append ht ht' hrest hrest' h
          rw [heq, ih hrest hrest' htexts]

end Token

/-! ### Expressions -/

namespace Expr

/-- What holds of an expression where it holds of its parts, by the forms that are written in their
own way: a sequence or choice of one item is written as the item. -/
theorem written_induction {P : Expr → Prop}
    (literal : ∀ text, P (.literal text)) (char : ∀ cls, P (.char cls)) (any : P .any)
    (endOfInput : P .endOfInput)
    (seqNone : P (.seq [])) (seqOne : ∀ item, P item → P (.seq [item]))
    (seqMore : ∀ first second rest, (∀ item ∈ first :: second :: rest, P item) →
      P (.seq (first :: second :: rest)))
    (choiceNone : P (.choice [])) (choiceOne : ∀ item, P item → P (.choice [item]))
    (choiceMore : ∀ first second rest, (∀ item ∈ first :: second :: rest, P item) →
      P (.choice (first :: second :: rest)))
    (star : ∀ body, P body → P (.star body)) (plus : ∀ body, P body → P (.plus body))
    (optional : ∀ body, P body → P (.optional body))
    (ahead : ∀ body, P body → P (.ahead body)) (notAhead : ∀ body, P body → P (.notAhead body))
    (rule : ∀ name, P (.rule name)) (e : Expr) :
  P e
  := by
  induction e using parts_induction with
  | h e ih =>
      cases e with
      | literal text => apply literal
      | char cls => apply char
      | any => apply any
      | endOfInput => apply endOfInput
      | seq items =>
          match items with
          | [] => apply seqNone
          | [item] => apply seqOne item (ih item (List.mem_singleton_self item))
          | first :: second :: rest => apply seqMore first second rest ih
      | choice items =>
          match items with
          | [] => apply choiceNone
          | [item] => apply choiceOne item (ih item (List.mem_singleton_self item))
          | first :: second :: rest => apply choiceMore first second rest ih
      | star body => apply star body (ih body (List.mem_singleton_self body))
      | plus body => apply plus body (ih body (List.mem_singleton_self body))
      | optional body => apply optional body (ih body (List.mem_singleton_self body))
      | ahead body => apply ahead body (ih body (List.mem_singleton_self body))
      | notAhead body => apply notAhead body (ih body (List.mem_singleton_self body))
      | rule name => apply rule

/-- Tokens within parentheses when `needed`. -/
def encloseTokens (needed : Bool) (ts : List Token) : List Token :=
  if needed then .plain '(' :: (ts ++ [.plain ')']) else ts

mutual

/-- The tokens that an expression is written with where operators weaker than a binding strength
stand in parentheses. -/
def tokens (strength : Nat) : Expr → List Token
  | .literal text => [.literal text]
  | .char cls => [.char cls.merged]
  | .any => [.plain '.']
  | .endOfInput => [.plain 'E', .plain 'O', .plain 'I']
  | .seq [] => [.plain '(', .plain ')']
  | .seq [item] => tokens strength item
  | .seq items => encloseTokens (1 < strength) ([.plain ' '].intercalate (tokensAll 2 items))
  | .choice [] => []
  | .choice [item] => tokens strength item
  | .choice items => encloseTokens (0 < strength) ([.bar].intercalate (tokensAll 1 items))
  | .star body => encloseTokens (3 < strength) (tokens 4 body ++ [.plain '*'])
  | .plus body => encloseTokens (3 < strength) (tokens 4 body ++ [.plain '+'])
  | .optional body => encloseTokens (3 < strength) (tokens 4 body ++ [.plain '?'])
  | .ahead body => encloseTokens (2 < strength) (.plain '&' :: tokens 3 body)
  | .notAhead body => encloseTokens (2 < strength) (.plain '!' :: tokens 3 body)
  | .rule name => name.toList.map .plain

/-- The tokens of several expressions. -/
def tokensAll (strength : Nat) : List Expr → List (List Token)
  | [] => []
  | item :: items => tokens strength item :: tokensAll strength items

end

section

variable (strength : Nat) (first second : Expr) (rest : List Expr)

theorem tokens_seq :
  tokens strength (.seq (first :: second :: rest))
    = encloseTokens (1 < strength)
      ([.plain ' '].intercalate (tokensAll 2 (first :: second :: rest)))
  := rfl

theorem tokens_choice :
  tokens strength (.choice (first :: second :: rest))
    = encloseTokens (0 < strength) ([.bar].intercalate (tokensAll 1 (first :: second :: rest)))
  := rfl

theorem write_seq :
  write strength (.seq (first :: second :: rest))
    = enclose (1 < strength) ([' '].intercalate (writeAll 2 (first :: second :: rest)))
  := rfl

theorem write_choice :
  write strength (.choice (first :: second :: rest))
    = enclose (0 < strength) ([' ', '/', ' '].intercalate (writeAll 1 (first :: second :: rest)))
  := rfl

end

theorem tokensAll_eq_map (strength : Nat) (items : List Expr) :
  tokensAll strength items = items.map (tokens strength)
  := by
  induction items with
  | nil => rfl
  | cons item items ih => rw [tokensAll, ih, List.map_cons]

theorem writeAll_eq_map (strength : Nat) (items : List Expr) :
  writeAll strength items = items.map (write strength)
  := by
  induction items with
  | nil => rfl
  | cons item items ih => rw [writeAll, ih, List.map_cons]

theorem flatMap_encloseTokens (needed : Bool) (ts : List Token) :
  (encloseTokens needed ts).flatMap Token.write = enclose needed (ts.flatMap Token.write)
  := by
  cases needed with
  | false => rfl
  | true => simp [encloseTokens, enclose, Token.write]

/-- Lists that are written with a separator between each two. -/
theorem flatMap_intercalate {α β : Type} (f : α → List β) (sep : List α) (xss : List (List α)) :
  (sep.intercalate xss).flatMap f = (sep.flatMap f).intercalate (xss.map fun xs => xs.flatMap f)
  := by
  induction xss with
  | nil => simp
  | cons xs xss ih =>
      cases xss with
      | nil => simp
      | cons ys xss => simp_all [List.intercalate_cons_cons]

/-- The written form of an expression is that of its tokens, one after the other. -/
theorem flatMap_tokens (e : Expr) :
  ∀ strength, (e.tokens strength).flatMap Token.write = e.write strength
  := by
  have hall {items : List Expr}
      (h : ∀ item ∈ items, ∀ k, (item.tokens k).flatMap Token.write = item.write k) (k : Nat) :
      (tokensAll k items).map (fun ts => ts.flatMap Token.write) = writeAll k items := by
    rw [tokensAll_eq_map, writeAll_eq_map, List.map_map]
    apply List.map_congr_left
    intro item hitem
    apply h item hitem
  induction e using written_induction with
  | literal text => simp [tokens, write, Token.write]
  | char cls => simp [tokens, write, Token.write, CharClass.write_merged]
  | any | endOfInput | seqNone | choiceNone =>
      intro strength
      rfl
  | seqOne item ih | choiceOne item ih => apply ih
  | seqMore first second rest ih =>
      intro strength
      rw [tokens_seq, write_seq, flatMap_encloseTokens, flatMap_intercalate, hall ih]
      rfl
  | choiceMore first second rest ih =>
      intro strength
      rw [tokens_choice, write_choice, flatMap_encloseTokens, flatMap_intercalate, hall ih]
      rfl
  | star body ih | plus body ih | optional body ih | ahead body ih | notAhead body ih =>
      simp [tokens, write, flatMap_encloseTokens, ih, Token.write]
  | rule name => simp [tokens, write, Token.write, List.flatMap_map]

/-! ### Tokens that fit -/

theorem fits_intercalate {sep : List Token} {tss : List (List Token)}
    (hsep : ∀ t ∈ sep, t.Fits) (h : ∀ ts ∈ tss, ∀ t ∈ ts, t.Fits) :
  ∀ t ∈ sep.intercalate tss, t.Fits
  := by
  induction tss with
  | nil => simp
  | cons ts tss ih =>
      obtain ⟨hts, htss⟩ := List.forall_mem_cons.mp h
      cases tss with
      | nil => simpa using hts
      | cons us tss =>
          rw [List.intercalate_cons_cons]
          exact List.forall_mem_append.mpr ⟨List.forall_mem_append.mpr ⟨hts, hsep⟩, ih htss⟩

theorem fits_encloseTokens {needed : Bool} {ts : List Token} (h : ∀ t ∈ ts, t.Fits) :
  ∀ t ∈ encloseTokens needed ts, t.Fits
  := by
  cases needed with
  | false => apply h
  | true =>
      rw [encloseTokens, if_pos rfl, List.forall_mem_cons, List.forall_mem_append]
      exact ⟨by simp [Token.Fits], h, by simp [Token.Fits]⟩

/-- What holds of all names in an expression holds of those in its parts. -/
theorem forall_refs_of_part {P : String → Prop} {e part : Expr} (h : ∀ name ∈ e.refs, P name)
    (hpart : part ∈ e.parts) :
  ∀ name ∈ part.refs, P name
  := by
  intro name hname
  apply h name
  rw [refs_eq_flatMap (by rintro _ rfl; cases hpart), List.mem_flatMap]
  exact ⟨part, hpart, hname⟩

/-- The tokens of an expression fit where the letters of its names do. -/
theorem fits_tokens {e : Expr}
    (h : ∀ name ∈ e.refs, ∀ c ∈ name.toList, (Token.plain c).Fits) :
  ∀ strength, ∀ t ∈ e.tokens strength, t.Fits
  := by
  have hall {items : List Expr} (h : ∀ item ∈ items, ∀ k, ∀ t ∈ item.tokens k, t.Fits) (k : Nat) :
      ∀ ts ∈ tokensAll k items, ∀ t ∈ ts, t.Fits := by
    rw [tokensAll_eq_map, List.forall_mem_map]
    intro item hitem
    apply h item hitem
  induction e using written_induction with
  | literal text => simp [tokens, Token.Fits]
  | char cls => simp [tokens, Token.Fits, CharClass.merged_merged]
  | any | endOfInput | seqNone | choiceNone => simp [tokens, Token.Fits]
  | seqOne item ih | choiceOne item ih =>
      apply ih (forall_refs_of_part h (List.mem_singleton_self item))
  | seqMore first second rest ih | choiceMore first second rest ih =>
      intro strength
      apply fits_encloseTokens
      apply fits_intercalate (by simp [Token.Fits])
      apply hall
      intro item hitem
      apply ih item hitem (forall_refs_of_part h hitem)
  | star body ih | plus body ih | optional body ih =>
      intro strength
      apply fits_encloseTokens
      rw [List.forall_mem_append]
      exact ⟨ih h 4, by simp [Token.Fits]⟩
  | ahead body ih | notAhead body ih =>
      intro strength
      apply fits_encloseTokens
      rw [List.forall_mem_cons]
      exact ⟨by simp [Token.Fits], ih h 3⟩
  | rule name =>
      intro strength
      rw [tokens, List.forall_mem_map]
      apply h name (List.mem_singleton_self name)

end Expr

end ClassTranscript.Peg
