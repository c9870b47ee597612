import StaticSite.Environment
import StaticSite.Text.Alphanumeric
import StaticSite.Text.Search

namespace StaticSite.Config
open StaticSite.Text

def isNameChar (c : Char) : Bool :=
  isAlphanumeric c || c == '_'

def nameAndDefault (reference : List Char) : List Char × Option (List Char) :=
  match splitAt? ":-".toList reference with
  | some (c :: name, default) => (c :: name, some default)
  | _ => (reference, none)

def valueOf (env : Environment) (name : List Char) (default : Option (List Char)) :
    Except (List Char) (List Char) :=
  match env.text? name, default with
  | some v, _ => .ok v
  | none, some v => .ok v
  | none, none => .error name

/-- Replaces references from left to right, with or without braces; two dollar signs are one. What
a reference stands for is not looked at again. The error is the first name that is not set. -/
def substitute (env : Environment) (cs : List Char) : Except (List Char) (List Char) :=
  match cs with
  | [] => .ok []
  | '$' :: '\x7b' :: cs =>
    match _h : cs.dropWhile (· != '\x7d') with
    | _ :: rest => do
      let (name, default) := nameAndDefault (cs.takeWhile (· != '\x7d'))
      let v ← valueOf env name default
      .ok (v ++ (← substitute env rest))
    | [] => (substitute env cs).map ("$\x7b".toList ++ ·)
  | '$' :: '$' :: cs => (substitute env cs).map ('$' :: ·)
  | '$' :: c :: cs =>
    if isNameChar c then do
      let v ← valueOf env (c :: cs.takeWhile isNameChar) none
      .ok (v ++ (← substitute env (cs.dropWhile isNameChar)))
    else (substitute env (c :: cs)).map ('$' :: ·)
  | c :: cs => (substitute env cs).map (c :: ·)
termination_by cs.length
decreasing_by
  · have := length_dropWhile_le (· != '\x7d') cs
    rw [_h] at this
    simp only [List.length_cons] at this ⊢
    omega
  · simp only [List.length_cons]
    omega
  · simp only [List.length_cons]
    omega
  · have := length_dropWhile_le isNameChar cs
    simp only [List.length_cons]
    omega
  · simp
  · simp

def expandVariables (env : Environment) (cs : List Char) : Except (List Char) (List Char) :=
  match splitAt? "$\x7b".toList cs with
  | none => .ok cs
  | some _ => substitute env cs

end StaticSite.Config
