import Edict.Proofs.Grammar.Derivation
import Edict.Proofs.Run.Law

/-!
# Concatenations

A chain of additions that a text constant begins is kept as one flat concatenation, and every other
one as additions nested on the left.  The two forms mean the same: the first part makes every sum on
the way a text, so that each addition evaluates one more part and joins its text on, as the
concatenation does, and none of them can fail by itself.

The parts may be any expressions.  What they do to the context, and where one of them fails, is the
same in both forms, since both evaluate them in the same order.

## Main statements

* `Expr.eval_foldLinks_add`: adding parts to an expression that gives texts joins their texts on.
* `Expr.eval_concat`: a concatenation that a text constant begins and the additions of its parts
  have the same outcome, from every context.
-/

namespace Edict

namespace Expr

/-! ## Sums of texts -/

/-- To a text everything can be added. -/
theorem arith_add_text (s : String) (v : Value) :
    Value.arith .add (.text s) v = .ok (.text (s ++ v.display)) := by
  cases v <;> rfl

/-- Adding parts to an expression that gives texts evaluates the parts one after the other and joins
their texts on. -/
theorem eval_foldLinks_add {first : Expr} {texts : Run String} (parts : List Expr)
    (h : first.eval = texts >>= fun s => pure (.text s)) :
    (foldLinks first (parts.map (ArithOp.add, ·))).eval =
      texts >>= fun s => evalAll parts >>= fun vs =>
        pure (.text (s ++ String.join (vs.map Value.display))) := by
  induction parts generalizing first texts with
  | nil => simp [foldLinks, evalAll, h]
  | cons part parts ih =>
      -- the sum of what stands before and the next part is a text again
      have hsum : (arith first .add part).eval =
          (texts >>= fun s => part.eval >>= fun v => pure (s ++ v.display)) >>= fun s =>
            pure (.text s) := by
        simp only [eval, h, bind_assoc, pure_bind, arith_add_text]
        rfl
      have hrest := ih hsum
      simp only [bind_assoc, pure_bind] at hrest
      show (foldLinks (arith first .add part) (parts.map (ArithOp.add, ·))).eval = _
      rw [hrest]
      simp only [evalAll, bind_assoc, pure_bind, List.map_cons, String.join_cons,
        String.append_assoc]

/-- A concatenation that a text constant begins joins the texts of its further parts to that
text. -/
theorem eval_concat_lit (s : String) (parts : List Expr) :
    (concat (.lit (.text s) :: parts)).eval =
      evalAll parts >>= fun vs => pure (.text (s ++ String.join (vs.map Value.display))) := by
  simp only [eval, evalAll, bind_assoc, pure_bind, List.map_cons, String.join_cons]
  rfl

/-- Adding the parts to a text constant does the same. -/
theorem eval_foldLinks_lit (s : String) (parts : List Expr) :
    (foldLinks (.lit (.text s)) (parts.map (ArithOp.add, ·))).eval =
      evalAll parts >>= fun vs => pure (.text (s ++ String.join (vs.map Value.display))) := by
  have hfirst : (lit (.text s)).eval = (pure s : Run String) >>= fun s => pure (.text s) := rfl
  rw [eval_foldLinks_add parts hfirst, pure_bind]

/-! ## The two forms of a chain -/

/-- A concatenation that a text constant begins and the additions of the same parts, nested on the
left, have the same outcome in every context: the same value or fault, and the same context left. -/
theorem eval_concat (s : String) (parts : List Expr) (c : Context) :
    (concat (.lit (.text s) :: parts)).eval c =
      (foldLinks (.lit (.text s)) (parts.map (ArithOp.add, ·))).eval c := by
  rw [eval_concat_lit, eval_foldLinks_lit]

end Expr

end Edict
