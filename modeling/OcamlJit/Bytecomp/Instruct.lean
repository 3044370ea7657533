/-
  OcamlJit.Bytecomp.Instruct
  ──────────────────────────
  The instructions of the bytecode compiler (`ocaml/bytecomp/instruct.ml`) and
  what they carry (`ocaml/lambda/lambda.ml`, `ocaml/parsing/asttypes.mli`).
  Debugging events are generic.
-/
import OcamlJit.Instructions.Types
import OcamlJit.Typing.IdentTable

namespace OcamlJit.Bytecomp

open OcamlJit.Instructions (RaiseKind Comp)
open OcamlJit.Typing (Ident)

/-- `Asttypes.constant`, less its locations. -/
inductive Constant where
  | constInt (i : Int)
  | constChar (c : UInt8)
  | constString (s : List UInt8) (delim : Option (List UInt8))
  | constFloat (s : List UInt8)
  | constInt32 (i : BitVec 32)
  | constInt64 (i : BitVec 64)
  | constNativeint (i : BitVec 64)
  deriving Repr, DecidableEq

/-- `Lambda.structured_constant`. -/
inductive StructuredConstant where
  | constBase (c : Constant)
  | constPointer (i : Int)
  | constBlock (tag : Int) (fields : List StructuredConstant)
  | constFloatArray (fields : List (List UInt8))
  | constImmstring (s : List UInt8)

/-- `Lambda.integer_comparison`. -/
inductive IntegerComparison where
  | ceq | cne | clt | cgt | cle | cge
  deriving Repr, DecidableEq

/-- `Lambda.negate_integer_comparison`. -/
def negateIntegerComparison : IntegerComparison → IntegerComparison
  | .ceq => .cne
  | .cne => .ceq
  | .clt => .cge
  | .cle => .cgt
  | .cgt => .cle
  | .cge => .clt

/-- `label`. -/
abbrev Label := Nat

/-- `Instruct.instruction`. -/
inductive Kinstruction (Ev : Type) where
  | klabel (lbl : Label)
  | kacc (n : Int)
  | kenvacc (n : Int)
  | kpush
  | kpop (n : Int)
  | kassign (n : Int)
  | kpushRetaddr (lbl : Label)
  | kapply (n : Int)
  | kappterm (n sz : Int)
  | kreturn (n : Int)
  | krestart
  | kgrab (n : Int)
  | kclosure (lbl : Label) (n : Int)
  | kclosurerec (lbls : List Label) (n : Int)
  | koffsetclosure (ofs : Int)
  | kgetglobal (q : Ident)
  | ksetglobal (q : Ident)
  | kconst (sc : StructuredConstant)
  | kmakeblock (n t : Int)
  | kmakefloatblock (n : Int)
  | kgetfield (n : Int)
  | ksetfield (n : Int)
  | kgetfloatfield (n : Int)
  | ksetfloatfield (n : Int)
  | kvectlength
  | kgetvectitem
  | ksetvectitem
  | kgetstringchar
  | kgetbyteschar
  | ksetbyteschar
  | kbranch (lbl : Label)
  | kbranchif (lbl : Label)
  | kbranchifnot (lbl : Label)
  | kstrictbranchif (lbl : Label)
  | kstrictbranchifnot (lbl : Label)
  | kswitch (tblConst tblBlock : List Label)
  | kboolnot
  | kpushtrap (lbl : Label)
  | kpoptrap
  | kraise (k : RaiseKind)
  | kcheckSignals
  | kccall (name : List UInt8) (n : Int)
  | knegint | kaddint | ksubint | kmulint | kdivint | kmodint
  | kandint | korint | kxorint | klslint | klsrint | kasrint
  | kintcomp (c : IntegerComparison)
  | koffsetint (n : Int)
  | koffsetref (n : Int)
  | kisint
  | kisout
  | kgetmethod
  | kgetpubmet (tag : Int)
  | kgetdynmet
  | kevent (ev : Ev)
  | kstop

/-- `immed_min`. -/
def immedMin : Int := -0x40000000

/-- `immed_max`. -/
def immedMax : Int := 0x3FFFFFFF

/-- What `Emitcode` uses of debugging events. -/
structure EventOps (Ev : Type) where
  /-- `ev_kind = Event_before`. -/
  before : Ev → Bool
  /-- `Bytegen.merge_events`; `none` is its `fatal_error`. -/
  mergeEvents : Ev → Ev → Option Ev

end OcamlJit.Bytecomp
