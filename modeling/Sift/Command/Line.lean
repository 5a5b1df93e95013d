import Sift.Command.Basic

/-!
# The command line

    symbols (filter | order-by)
    parse TEXT [--order-by]
    tokens TEXT [--order-by]
    --version | -V

After `--` every argument is an operand. Before it, what begins with `-` and is more than that is an
option.
-/

namespace Sift

namespace Command

inductive Request where
  | version
  | symbols (g : Grammar)
  | tokens (g : Grammar) (text : String)
  | canonical (g : Grammar) (text : String)
deriving DecidableEq

/-- What a run leaves behind. -/
structure Report where
  code : Nat
  out : String
  err : String
deriving DecidableEq

/-- The arguments of one command. -/
structure Arguments where
  operands : List String
  orderBy : Bool
deriving DecidableEq

namespace Arguments

/-- Sorts arguments into operands and options. No option may be unknown or given twice. -/
def ofList? : List String → Option Arguments
  | [] => some ⟨[], false⟩
  | "--" :: r => some ⟨r, false⟩
  | "--order-by" :: r => do
    let rest ← ofList? r
    if rest.orderBy then none else some { rest with orderBy := true }
  | arg :: r => do
    if arg ≠ "-" ∧ ['-'].isPrefixOf arg.toList then none
    else
      let rest ← ofList? r
      some { rest with operands := arg :: rest.operands }

def grammar (a : Arguments) : Grammar := if a.orderBy then .orderBy else .filter

/-- The one operand there has to be. -/
def text? (a : Arguments) : Option String :=
  match a.operands with
  | [text] => some text
  | _ => none

end Arguments

def grammarOfName? : String → Option Grammar
  | "filter" => some .filter
  | "order-by" => some .orderBy
  | _ => none

namespace Request

/-- Whether an argument asks for the version: `--version`, or a cluster of short options led by `V`,
which is acted on before the rest of the cluster is read. -/
def asksVersion (arg : String) : Bool :=
  arg == "--version" || ['-', 'V'].isPrefixOf arg.toList

/-- Reads the command by its name. -/
def ofCommand? : List String → Option Request
  | "symbols" :: r => do
    let a ← Arguments.ofList? r
    if a.orderBy then none else return .symbols (← grammarOfName? (← a.text?))
  | "tokens" :: r => do
    let a ← Arguments.ofList? r
    return .tokens a.grammar (← a.text?)
  | "parse" :: r => do
    let a ← Arguments.ofList? r
    return .canonical a.grammar (← a.text?)
  | _ => none

/-- Reads all arguments. Only the first can ask for the version. -/
def ofArgs? (args : List String) : Option Request :=
  if args.head?.any asksVersion then some .version else ofCommand? args

def output : Request → Except CommandError String
  | version => .ok "aipf 0.1.0"
  | symbols g => .ok (Command.symbols g).render
  | tokens g text => (Command.tokens g text).map Json.render
  | canonical g text => Command.canonical g text

end Request

/-- Wrong usage ends with code 2, an error in the text with code 1 and a message. -/
def run (args : List String) : Report :=
  match Request.ofArgs? args with
  | none => ⟨2, "", "usage: (symbols | parse | tokens) [--order-by] [--] TEXT\n"⟩
  | some request =>
    match request.output with
    | .ok out => ⟨0, out ++ "\n", ""⟩
    | .error e => ⟨1, "", e.message ++ "\n"⟩

end Command

end Sift
