import Plume.Run.Statement
import Plume.Token.Scanner
import Plume.Tree.Parser

/-!
# Scripts

A script is a source text. It parses into a program or fails with one diagnostic, and it runs in an
environment.
-/

namespace Plume.Script

/-- The program of a source. Of several problems with the tokens only the first is reported, and the
tokens are parsed only if there is none. -/
def parse (source : Text) : Except Diagnostic Program :=
  let scanned := tokenize source
  match scanned.errors with
  | d :: _ => .error d
  | [] => Plume.parse scanned.tokens

/-- Runs a source in an environment. A source that does not parse leaves the environment alone. -/
def run (fuel : Nat) (builtins : Builtins) (env : Environment) (source : Text) :
    Except Abort RunResult :=
  match parse source with
  | .ok p => p.run fuel builtins env
  | .error d => .ok ⟨[], some d, env, none⟩

/-- Runs a source on its own, with the functions of the language. -/
def evaluate (fuel : Nat) (source : Text) : Except Abort RunResult :=
  run fuel .standard .empty source

/-- Runs sources one after another in one environment, and gives the result of each. -/
def session (fuel : Nat) (builtins : Builtins) : Environment → List Text →
    Except Abort (List RunResult)
  | _, [] => .ok []
  | env, source :: rest => do
    let result ← run fuel builtins env source
    let others ← session fuel builtins result.environment rest
    return result :: others

end Plume.Script
