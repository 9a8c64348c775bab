import Mathlib.Data.List.Forall2
import Bytelift.Source.Program

/-!
# Assembling a body line by line

The lines of a body are handed to the assembler one after another, and each leaves it longer by a label, a byte or a
row of the exception table. Labels and constants are looked up in hash tables, so a source is followed by these
lemmas where it cannot be evaluated.

Results:
* `parse_static`: **a source of one static method is that method**.
-/

namespace Bytelift

open List

namespace Assembler

variable {a : Assembler}

theorem intern_new {key : InternKey} (h : a.interned[key]? = none) (c : Constant) :
    a.intern key c = ({ a with pool := a.pool.push c, interned := a.interned.insert key a.pool.size }, a.pool.size) := by
  unfold intern
  rw [h]

theorem resolveTry_ok {t : TryEntry} {start stop handler : Nat} (hstart : a.labels[t.start]? = some start)
    (hstop : a.labels[t.stop]? = some stop) (hhandler : a.labels[t.handler]? = some handler) :
    a.resolveTry t = .ok ⟨start, stop, handler, t.catchType, t.isCleanup⟩ := by
  unfold resolveTry resolve
  rw [hstart, hstop, hhandler]
  rfl

theorem build_ok {t : MethodType} {r : List ExceptionEntry} (he : a.error = none)
    (hd : MethodType.parse a.desc = .ok t) (hf : a.fixups = #[])
    (hr : a.tries.toList.mapM a.resolveTry = .ok r) :
    a.build.2 = .ok {
      owner := a.owner, name := a.name, desc := a.desc, isStatic := a.isStatic
      maxLocals := max a.maxLocals (if a.isStatic then t.argSlots else t.argSlots + 1), maxStack := a.maxStack
      code := a.code.toList, exceptions := r, pool := a.pool } := by
  unfold build
  rw [he, hd]
  unfold finish
  dsimp only
  rw [show (a.locals _).fixups = #[] from hf,
    show (a.locals _).tries.toList.mapM (a.locals _).resolveTry = .ok r from hr]
  rfl

end Assembler

namespace Source

variable {a a' : Assembler} {ls : List BodyLine}

theorem assembleBody_cons {l : BodyLine} (h : assembleLine a l.head l.args = .ok a') (he : a'.error = none) :
    assembleBody a (l :: ls) = assembleBody a' ls := by
  rw [assembleBody, h]
  dsimp only
  rw [he]

theorem assembleBody_label {n : Nat} {l : Text} (h : a.labels.contains l = false) (he : a.error = none) :
    assembleBody a (⟨n, l ++ [Text.byte ':'], []⟩ :: ls) = assembleBody { a with labels := a.labels.insert l a.pos } ls := by
  refine assembleBody_cons ?_ he
  have hsuffix : List.isSuffixOf [Text.byte ':'] (l ++ [Text.byte ':']) = true :=
    isSuffixOf_iff_suffix.2 (suffix_append l _)
  unfold assembleLine Assembler.label
  rw [hsuffix, dropLast_concat, h]
  rfl

/-- A line that stands for one byte, whatever precedes it. -/
def Writes (l : BodyLine) (b : UInt8) : Prop :=
  ∀ a, assembleLine a l.head l.args = .ok { a with code := a.code ++ #[b] }

theorem assembleBody_writes {new : List BodyLine} (bytes : List UInt8) (h : Forall₂ Writes new bytes)
    (he : a.error = none) :
    assembleBody a (new ++ ls) = assembleBody { a with code := a.code ++ bytes.toArray } ls := by
  induction h generalizing a with
  | nil => simp
  | @cons l b new bytes hl _ ih =>
    let next : Assembler := { a with code := a.code ++ #[b] }
    calc assembleBody a (l :: new ++ ls)
        = assembleBody next (new ++ ls) := assembleBody_cons (hl a) he
      _ = assembleBody { next with code := next.code ++ bytes.toArray } ls := ih he
      _ = assembleBody { a with code := a.code ++ (b :: bytes).toArray } ls := by simp [next]

/-- A source whose lines are read and whose methods are assembled. -/
theorem parse_of_readLines {source : Text} {r : Reading} {ms : List Method} (hr : readLines 1 {} source.lines.lines = .ok r)
    (hlong : source.lines.tooLong = false) (hcur : r.current = none)
    (hm : r.methods.reverse.mapM (assembleMethod r.classes.reverse) = .ok ms) :
    parse source = .ok { classes := layouts r.classes.reverse, methods := ms } := by
  unfold parse
  dsimp only
  rw [hr, hlong]
  simp only [bind, Except.bind, hcur, hm]
  rfl

theorem assembleMethod_static {owner name symbol desc : Text} (classes : List ClassRef) (n : Nat) {body : List BodyLine} {m : Method}
    (hs : splitMember? symbol = some (owner, name))
    (hb : assembleBody (classes.foldl Assembler.declareClass { owner, name, desc, isStatic := true }) body = .ok a)
    (hm : a.build.2 = .ok m) : assembleMethod classes ⟨n, [Text.ofString "static", symbol, desc], body.reverse⟩ = .ok m := by
  unfold assembleMethod
  simp only [if_true, hs, reverse_reverse, hb, bind, Except.bind, hm]
  rfl

/-- **A source of one static method is that method.** -/
theorem parse_static {source owner name : Text} (n : Nat) (symbol desc : Text) (body : List BodyLine) {m : Method}
    (hr : readLines 1 {} source.lines.lines =
      .ok { methods := [⟨n, [Text.ofString "static", symbol, desc], body.reverse⟩] })
    (hlong : source.lines.tooLong = false) (hs : splitMember? symbol = some (owner, name))
    (hb : assembleBody { owner, name, desc, isStatic := true } body = .ok a) (hm : a.build.2 = .ok m) :
    parse source = .ok { methods := [m] } := by
  have hmethod := assembleMethod_static [] n hs hb hm
  refine parse_of_readLines hr hlong rfl ?_
  rw [reverse_singleton, mapM_cons, reverse_nil, hmethod]
  rfl

end Source

end Bytelift
