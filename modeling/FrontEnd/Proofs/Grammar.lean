import FrontEnd.Expression

/-!
The grammar of expressions in layers. A binary layer chains operands of the next tighter layer and
leans to the left; the two innermost layers are operands with signs in front and atoms. An
expression between parentheses is an atom again, and the parentheses leave no trace in its tree.
-/

namespace FrontEnd

/-- The layers of the grammar, the loosest first. -/
inductive Layer
  | equality | relation | sum | product | signed | atom
deriving DecidableEq

namespace Layer

def tighter : Layer → Layer
  | .equality => .relation
  | .relation => .sum
  | .sum => .product
  | .product => .signed
  | .signed | .atom => .atom

def ofOperator? : Kind → Option Layer
  | .equals | .notEquals => some .equality
  | .less | .greater => some .relation
  | .plus | .dash => some .sum
  | .star | .slash => some .product
  | _ => none

def power : Layer → Power
  | .equality => .equals
  | .relation => .lessGreater
  | .sum => .sum
  | .product => .product
  | .signed => .unary
  | .atom => .call

def ofPower : Power → Layer
  | .lowest => .equality
  | .equals => .relation
  | .lessGreater => .sum
  | .sum => .product
  | .product | .unary | .call => .signed

def rank (l : Layer) : Nat :=
  l.power.rank

end Layer

def Kind.BindsTighter (k : Kind) (power : Power) : Prop :=
  ∃ l, Layer.ofOperator? k = some l ∧ power < l.power

inductive Derives : Layer → List Token → Expr → Prop
  | identifier {t : Token} : t.kind = .identifier → Derives .atom [t] (.identifier (.ofToken t))
  | integer {t : Token} {value : Nat} :
      t.kind = .integer → integerValue? t.literal.toList = some value →
      Derives .atom [t] (.integer t value)
  | group {o c : Token} {ts : List Token} {x : Expr} :
      o.kind = .openParen → Derives .equality ts x → c.kind = .closeParen →
      Derives .atom (o :: (ts ++ [c])) x
  | unary {o : Token} {ts : List Token} {x : Expr} :
      o.kind = .not ∨ o.kind = .dash → Derives .signed ts x →
      Derives .signed (o :: ts) (.unary o x (o.span.hull x.span))
  | binary {l : Layer} {o : Token} {ts us : List Token} {x y : Expr} :
      Layer.ofOperator? o.kind = some l → Derives l ts x → Derives l.tighter us y →
      Derives l (ts ++ o :: us) (.binary x o y (x.span.hull y.span))
  | tighter {l : Layer} {ts : List Token} {x : Expr} : Derives l.tighter ts x → Derives l ts x

namespace Layer

theorem rank_le_rank_tighter (l : Layer) : l.rank ≤ l.tighter.rank := by
  cases l <;> decide

theorem rank_le_of_ofOperator? {k : Kind} {l : Layer} (h : ofOperator? k = some l) :
    l.rank ≤ 4 := by
  cases k <;> cases h <;> decide

theorem ofPower_power_of_ofOperator? {k : Kind} {l : Layer} (h : ofOperator? k = some l) :
    ofPower l.power = l.tighter := by
  cases k <;> cases h <;> rfl

theorem rank_ofPower_le (p : Power) : (ofPower p).rank ≤ 5 := by
  cases p <;> decide

/-- A layer of operators lies within what is read at a power if they bind tighter. -/
theorem rank_ofPower_le_iff {k : Kind} {l : Layer} (h : ofOperator? k = some l) (p : Power) :
    (ofPower p).rank ≤ l.rank ↔ p < l.power := by
  cases k <;> cases h <;> cases p <;> decide

theorem rank_equality_le (l : Layer) : equality.rank ≤ l.rank := by
  cases l <;> decide

theorem rank_le_rank_atom (l : Layer) : l.rank ≤ atom.rank := by
  cases l <;> decide

theorem rank_tighter_le_of_rank_le {l : Layer} (h : l.rank ≤ 4) : l.tighter.rank ≤ signed.rank := by
  cases l <;> revert h <;> decide

theorem rank_tighter_le_of_ne {l m : Layer} (h : l.rank ≤ m.rank) (hn : l ≠ m) :
    l.tighter.rank ≤ m.rank := by
  cases l <;> cases m <;> revert h hn <;> decide

theorem rank_tighter_of_rank_lt {l m : Layer} (h : l.rank < m.rank) :
    l.tighter.rank = l.rank + 1 := by
  cases l <;> cases m <;> revert h <;> decide

end Layer

namespace Derives

variable {l m : Layer} {ts us : List Token} {x y : Expr}

/-- A tree of a tighter layer is a tree of every looser one. -/
theorem loosen (h : Derives m ts x) (hl : l.rank ≤ m.rank) : Derives l ts x := by
  induction hn : m.rank - l.rank generalizing l with
  | zero =>
      have he : l = m := by
        have hr : l.rank = m.rank := by omega
        revert hr
        cases l <;> cases m <;> decide
      rw [he]
      exact h
  | succ n ih =>
      have ht := Layer.rank_tighter_of_rank_lt (l := l) (m := m) (by omega)
      exact .tighter (ih (by omega) (by omega))

theorem ne_nil (h : Derives l ts x) : ts ≠ [] := by
  induction h with
  | identifier | integer | group | unary => simp
  | binary => simp
  | tighter _ ih => exact ih

/-- A chain of operands that are joined by operators of one layer leans to the left. -/
theorem chain (h : Derives l ts x) (links : List (Token × List Token × Expr))
    (hl : ∀ k ∈ links, Layer.ofOperator? k.1.kind = some l ∧ Derives l.tighter k.2.1 k.2.2) :
    Derives l (ts ++ links.flatMap fun k => k.1 :: k.2.1)
      (links.foldl (fun x k => .binary x k.1 k.2.2 (x.span.hull k.2.2.span)) x) := by
  induction links generalizing ts x with
  | nil => simpa using h
  | cons k links ih =>
      have hk := hl k (by simp)
      have hb := ih (.binary hk.1 h hk.2) fun k hm => hl k (by simp [hm])
      simpa [List.append_assoc] using hb

/-- An operand with its signs can be added behind any expression. It becomes the right operand at
the edge of the tree, as far down as the operator binds tighter. -/
theorem exists_append_signed {o : Token} (h : Derives l ts x)
    (ho : Layer.ofOperator? o.kind = some m) (hu : Derives .signed us y) (hl : l.rank ≤ m.rank) :
    ∃ z, Derives l (ts ++ o :: us) z := by
  have hm := Layer.rank_le_of_ofOperator? ho
  have ht : Derives m.tighter us y := hu.loosen (Layer.rank_tighter_le_of_rank_le hm)
  induction h with
  | identifier | integer | group =>
      have : Layer.atom.rank = 6 := rfl
      omega
  | unary =>
      have : Layer.signed.rank = 5 := rfl
      omega
  | @binary l p ts vs x y hp hx hy ihx ihy =>
      by_cases he : l = m
      · subst he
        exact ⟨_, .binary ho (.binary hp hx hy) ht⟩
      · obtain ⟨z, hz⟩ := ihy (Layer.rank_tighter_le_of_ne hl he)
        exact ⟨_, by simpa [List.append_assoc] using Derives.binary hp hx hz⟩
  | @tighter l ts x hx ih =>
      by_cases he : l = m
      · subst he
        exact ⟨_, .binary ho (.tighter hx) ht⟩
      · obtain ⟨z, hz⟩ := ih (Layer.rank_tighter_le_of_ne hl he)
        exact ⟨z, .tighter hz⟩

/-- Two expressions with an operator between them are one expression. -/
theorem exists_append {o : Token} (h : Derives .equality ts x)
    (ho : Layer.ofOperator? o.kind = some m) (hu : Derives l us y) :
    ∃ z, Derives .equality (ts ++ o :: us) z := by
  induction hu generalizing ts o m x with
  | identifier ht => exact h.exists_append_signed ho (.tighter (.identifier ht)) m.rank_equality_le
  | integer ht hv =>
      exact h.exists_append_signed ho (.tighter (.integer ht hv)) m.rank_equality_le
  | group hp hx hc =>
      exact h.exists_append_signed ho (.tighter (.group hp hx hc)) m.rank_equality_le
  | unary hp hx => exact h.exists_append_signed ho (.unary hp hx) m.rank_equality_le
  | binary hp _ _ ihx ihy =>
      obtain ⟨z, hz⟩ := ihx h ho
      simpa [List.append_assoc] using ihy hz hp
  | tighter _ ih => exact ih h ho

/-- An expression with a sign in front can be added behind any expression: its sign becomes an
operator. -/
theorem exists_append_dash {d : Token} (h : Derives .equality ts x) (hd : d.kind = .dash)
    (hu : Derives l (d :: us) y) : ∃ z, Derives .equality (ts ++ d :: us) z := by
  generalize hv : d :: us = vs at hu
  have ho : Layer.ofOperator? d.kind = some .sum := by rw [hd]; rfl
  induction hu generalizing us with
  | identifier ht =>
      cases hv
      rw [hd] at ht
      contradiction
  | integer ht =>
      cases hv
      rw [hd] at ht
      contradiction
  | group ht =>
      cases hv
      rw [hd] at ht
      contradiction
  | unary _ hx =>
      cases hv
      exact h.exists_append_signed ho hx (Layer.rank_equality_le _)
  | @binary l p vs ws x y hp hx hy ihx _ =>
      match vs, hx.ne_nil with
      | v :: vs, _ =>
          cases hv
          obtain ⟨z, hz⟩ := ihx rfl
          simpa [List.append_assoc] using hz.exists_append hp hy
  | tighter _ ih => exact ih hv

end Derives

end FrontEnd
