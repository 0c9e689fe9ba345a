/-
LiloBoot.Boot.ManualConfig — `conf=` in the boot arguments
(`check_manual_config_filepath` of `second/yaboot.c`).

A pointer into the boot arguments is the string from there on. The memory of the
arguments up to their NUL is a list of characters; the function may put a NUL
into it.
-/
import LiloBoot.Boot.TextUi

namespace LiloBoot.Boot

def nul : Char := '\x00'

/-- `conf_token`. -/
def confToken : CStr := ['c', 'o', 'n', 'f', '=']

/-- The `do` loop: `c1` and `c2` as it leaves them. -/
def confLoop : Nat → CStr → Option CStr × Option CStr
  | 0, c1 => (some c1, none)
  | fuel + 1, c1 =>
    let c1 := c1.drop confToken.length
    match strstr c1 confToken with
    | none => (some c1, none)
    | some c2 =>
      let c2 := c2.drop confToken.length
      match strstr c2 confToken with
      | none => (none, some c2)
      | some c1 => confLoop fuel c1

/-- What both pointers are set to behind the loop. -/
def loopEnd : Option CStr × Option CStr → CStr
  | (none, c2) => c2.getD []
  | (some c1, _) => c1

/-- The string at a pointer: what stands before the first NUL. -/
def stringAt (memory : List Char) (i : Nat) : CStr := (memory.drop i).takeWhile (· ≠ nul)

/-- `check_manual_config_filepath`: the result, `none` for NULL, and the memory of `bootargs`. -/
def checkManualConfigFilepath (bootargs : CStr) : Option CStr × List Char :=
  match strstr bootargs confToken with
  | none => (none, bootargs)
  | some c1 =>
    let file := loopEnd (confLoop bootargs.length c1)
    let start := bootargs.length - file.length
    -- the loop over `c2`, from the same place on
    let space := start + (file.takeWhile (· ≠ ' ')).length
    let memory := if space < bootargs.length then bootargs.set space nul else bootargs
    (if stringAt memory start = [] then none else some (stringAt memory start), memory)

end LiloBoot.Boot
