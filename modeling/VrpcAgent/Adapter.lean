import VrpcAgent.Agent
import VrpcAgent.PartialMap
import Mathlib.Data.List.Infix

/-!
# The R side of the agent

`Adapter.R`: session directories, the environments a call is evaluated in, and
`json_call`, cut at the points where a fork touches the file system. R values
form a type `V`; what base R and the imported packages compute on them is a
structure of functions.
-/

namespace VrpcAgent

open Function PartialMap

abbrev Env (V : Type) := Str → Option V

/-! ## Strings -/

/-- `strsplit(x, sep, fixed = TRUE)[[1]]` for a non-empty `sep`: no piece is made
of an empty rest. `skip` counts the bytes of a separator still to be passed. -/
def strsplit_from (sep : Str) : Nat → Str → Str → List Str
  | _, acc, [] => if acc = [] then [] else [acc]
  | skip + 1, acc, _ :: s => strsplit_from sep skip acc s
  | 0, acc, c :: s =>
    if sep.isPrefixOf (c :: s) then acc :: strsplit_from sep (sep.length - 1) [] s
    else strsplit_from sep 0 (acc ++ [c]) s

def strsplit (x sep : Str) : List Str := strsplit_from sep 0 [] x

def is_white (c : UInt8) : Bool := c == 32 || c == 9 || c == 13 || c == 10

def trimws (x : Str) : Str := ((x.dropWhile is_white).reverse.dropWhile is_white).reverse

def paste0 (x y : Str) : Str := x ++ y

/-! ## Base R and the imported packages -/

structure Condition where
  message : Str
  call : Option Str

def Condition.toString (e : Condition) : Str :=
  match e.call with
  | some call => lit "Error in " ++ call ++ lit ": " ++ e.message ++ lit "\n"
  | none => lit "Error: " ++ e.message ++ lit "\n"

/-- A recorded plot: what `tempfile` appends to its pattern for the file of the SVG device, what
printing the plot there comes to (an error message, or nothing) and the base64 text of the file,
if there is one then. -/
structure Plot where
  gfx_file : Str
  printed : Option Str
  file : Option Str

inductive Callee where
  | name (n : Str)
  | colons (pkg fn : Str)
  deriving DecidableEq

abbrev Args (V : Type) := List (Option Str × V)

/-- The environments of an evaluation: the global environment of the process and,
for a static call, the new environment in front. -/
structure Scope (V : Type) where
  fresh : Option (Env V)
  genv : Env V

structure Evaluation (V : Type) where
  scope : Scope V
  outcome : Except Condition V
  plots : List Plot

structure RLib (V : Type) where
  is_null : V → Bool
  /-- The text of a character vector of length one. -/
  character : V → Option Str
  string : Str → V
  fromJSON : Json → V
  /-- `args[[1]] <- v` where `args` is a character vector of length one: the
  argument list it leaves, nothing when it is an error. -/
  set_elt : V → Option (Args V)
  toJSON : V → Option Str
  serializeJSON : V → Option Str
  /-- The frame of `attach_session`, the `vrpc` namespace, its imports, the base
  namespace, and the search path behind the global environment. -/
  frame : Env V
  vrpc_ns : Env V
  imports : Env V
  base_ns : Env V
  search : Env V
  evaluate : Callee → Args V → Scope V → Evaluation V

def Scope.get {V : Type} (R : RLib V) (sc : Scope V) (n : Str) : Option V :=
  match sc.fresh with
  | none => (sc.genv n).or (R.search n)
  | some env => overlay env
    (overlay R.frame (overlay R.vrpc_ns (overlay R.imports (overlay R.base_ns (overlay sc.genv R.search))))) n

def Scope.assign {V : Type} (sc : Scope V) (n : Str) (v : V) : Scope V :=
  match sc.fresh with
  | none => { sc with genv := update sc.genv n (some v) }
  | some env => { sc with fresh := some (update env n (some v)) }

/-! ## The file system -/

abbrev Path := List Str

inductive Node (V : Type) where
  | dir
  | rdata (env : Env V)
  | other

/-- What is below `tempdir()`; `tempdir()` itself is a directory. -/
abbrev FS (V : Type) := Path → Option (Node V)

section
variable {V : Type}

def Node.isDir : Option (Node V) → Bool
  | some .dir => true
  | _ => false

def walk (fs : FS V) : Path → List Str → Option Path
  | cur, [] => some cur
  | cur, c :: cs =>
    if c = [] ∨ c = lit "." then walk fs cur cs
    else if c = lit ".." then walk fs cur.dropLast cs
    else if Node.isDir (fs (cur ++ [c])) then walk fs (cur ++ [c]) cs else none

/-- `dir.create(recursive = TRUE)`: directories are made up to the first component
that is a file. -/
def mkdirs (fs : FS V) : Path → List Str → FS V
  | _, [] => fs
  | cur, c :: cs =>
    if c = [] ∨ c = lit "." then mkdirs fs cur cs
    else if c = lit ".." then mkdirs fs cur.dropLast cs
    else
      match fs (cur ++ [c]) with
      | none => mkdirs (update fs (cur ++ [c]) (some .dir)) (cur ++ [c]) cs
      | some .dir => mkdirs fs (cur ++ [c]) cs
      | some _ => fs

def vrpc_dir : Str := lit "vrpc"

/-- `create_session_dir`; `tmp` is what `tempfile` appends to its pattern. -/
def session_components (tmp : Str) : Option Str → List Str
  | none => [vrpc_dir, lit "__static__" ++ tmp]
  | some session_id => vrpc_dir :: session_id.splitOn 47

def create_session_dir (fs : FS V) (components : List Str) : FS V :=
  if (walk fs [] components).isSome then fs else mkdirs fs [] components

def session_files : List Str :=
  [lit ".RData", lit ".REval", lit ".RInfo", lit ".Rlibs", lit "DESCRIPTION"]

/-- The files of a list are written one after the other, up to the first name that
is a directory. -/
def write_files (cwd : Path) : List (Str × Node V) → FS V → FS V × Bool
  | [], fs => (fs, true)
  | (f, node) :: l, fs =>
    if Node.isDir (fs (cwd ++ [f])) then (fs, false)
    else write_files cwd l (update fs (cwd ++ [f]) (some node))

/-- The saved environment, `save(list = ls(eval_env, all.names = TRUE))`, and the
four files beside it. -/
def session_nodes (env : Env V) : List (Str × Node V) :=
  session_files.map fun f => (f, if f = lit ".RData" then .rdata env else .other)

def save_session (fs : FS V) (cwd : Path) (session_id : Option Str) (sc : Scope V) : FS V × Bool :=
  match session_id with
  | none => (fs, true)
  | some _ => write_files cwd (session_nodes sc.genv) fs

/-- The evaluation environment; nothing when `load` fails. -/
def attach_session (fs : FS V) (cwd : Path) (session_id : Option Str) (genv : Env V) : Option (Scope V) :=
  match session_id with
  | none => some ⟨some fun _ => none, genv⟩
  | some _ =>
    match fs (cwd ++ [lit ".RData"]) with
    | none => some ⟨none, genv⟩
    | some (.rdata env) => some ⟨none, overlay env genv⟩
    | some _ => none

/-! ## json_call -/

def as_name (x : Str) : Option Str := if x = [] then none else some x

def call_object (object_name : Str) : Option Callee :=
  match strsplit object_name (lit "::") with
  | [pkg, fn] =>
    match as_name pkg, as_name fn with
    | some p, some f => some (.colons p f)
    | _, _ => none
  | n :: _ => (as_name n).map .name
  | [] => none

def eval_var_name (object_name : Str) : Str := paste0 (lit ".") object_name

def reference (R : RLib V) (v : V) : Option Str :=
  match R.character v with
  | some (36 :: s) => some s
  | _ => none

/-- The argument loop on a list; assigning NULL deletes the element. `i` is the
index of the next round, `n` the number of rounds left. -/
def resolve_args (R : RLib V) (sc : Scope V) : Nat → Nat → Args V → Option (Args V)
  | 0, _, args => some args
  | n + 1, i, args =>
    match args[i]? with
    | none => none
    | some (name, arg) =>
      match reference R arg with
      | none => resolve_args R sc n (i + 1) args
      | some ref =>
        match sc.get R (paste0 (lit ".") ref) with
        | none => none
        | some v =>
          resolve_args R sc n (i + 1) (if R.is_null v then args.eraseIdx i else args.set i (name, v))

def call_args (R : RLib V) (sc : Scope V) (string_args : Json) : Option (Args V) :=
  match string_args with
  | .null => some []
  | .array xs => resolve_args R sc xs.length 0 (xs.map fun x => (none, R.fromJSON x))
  | .object m => resolve_args R sc m.length 0 (m.map fun p => (some p.1, R.fromJSON p.2))
  | x =>
    match reference R (R.fromJSON x) with
    | none => some [(none, R.fromJSON x)]
    | some ref => (sc.get R (paste0 (lit ".") ref)).bind R.set_elt

/-- From the call object to the end of `evaluate`, with the output handler's
assignment; nothing when an R error is raised outside the evaluation. -/
def evaluate_call (R : RLib V) (func_name : Str) (string_args : Json) (sc : Scope V) : Option (Evaluation V) := do
  let callee ← call_object func_name
  let args ← call_args R sc string_args
  let ev := R.evaluate callee args sc
  match ev.outcome with
  | .ok val => some { ev with scope := ev.scope.assign (eval_var_name func_name) val }
  | .error _ => some ev

/-! ## The output -/

/-- The error that it stops with. -/
def try_print_plot (p : Plot) : Option Str :=
  let no_plot := if p.file.isNone then some (lit "This call did not generate any plot.") else none
  match p.printed with
  | some msg => if lit "invalid graphics state" <:+: msg then no_plot else some (lit "Failed to print plot: " ++ msg)
  | none => no_plot

/-- The base64 text, nothing on an error. -/
def extract_svg (p : Plot) : Option Str := if (try_print_plot p).isNone then p.file else none

def gfx_left (p : Plot) : Option Path :=
  if (try_print_plot p).isSome ∧ p.file.isSome then some [lit "file" ++ p.gfx_file] else none

/-- NULL when no plot was recorded. -/
def extract_graphics (plots : List Plot) : Option (Option Str) :=
  match plots.getLast? with
  | none => some none
  | some p => (extract_svg p).map some

/-- `gfx` is only computed where the code uses it. -/
def prepare_output (R : RLib V) (val : V) (gfx : Option (Option Str)) : Option Str :=
  if R.is_null val then
    match gfx with
    | none => none
    | some (some g) => R.toJSON (R.string g)
    | some none =>
      match R.toJSON val with
      | some trial1 => some trial1
      | none => some ((R.serializeJSON val).getD (lit "__not_serializable__"))
  else
    match R.toJSON val with
    | some trial1 => some trial1
    | none =>
      match gfx with
      | none => none
      | some (some g) => some g
      | some none => some ((R.serializeJSON val).getD (lit "__not_serializable__"))

def prepare_error (err : Condition) : Str :=
  paste0 err_mark (trimws ((strsplit err.toString (lit ": ")).getLastD []))

def call_output (R : RLib V) (func_name : Str) (ev : Evaluation V) : Option Str :=
  match ev.outcome with
  | .error e => some (prepare_error e)
  | .ok _ =>
    match ev.scope.get R (eval_var_name func_name) with
    | none => none
    | some val => prepare_output R val (extract_graphics ev.plots)

def output_left (R : RLib V) (func_name : Str) (ev : Evaluation V) : Option Path :=
  match ev.outcome with
  | .error _ => none
  | .ok _ =>
    match ev.scope.get R (eval_var_name func_name) with
    | none => none
    | some val => if R.is_null val ∨ R.toJSON val = none then ev.plots.getLast?.bind gfx_left else none

end

/-! ## Forks -/

/-- How far a fork has come in `json_call`. `start` is the environment that the
evaluation started in. -/
inductive Stage (V : Type) where
  | forked
  | attached (start : Scope V)
  | evaluated (start : Scope V) (ev : Evaluation V)
  | saved (start : Scope V) (ev : Evaluation V)
  | replied (start : Scope V) (ev : Evaluation V) (out : Str) (sent : List Sent)
  | dead

structure Fork (V : Type) where
  call : VrpcCall
  session_dir : List Str
  genv : Env V
  stage : Stage V

section
variable {V : Type} (host : Host) (R : RLib V)

def fork_reply (call : VrpcCall) (out : Str) : EStateM.Result Exn Frame Unit :=
  (on_execution_done host call.call_id out).run ⟨call.memory, .null, [], none⟩

/-- The next step of `json_call`. An R error ends the fork. -/
def json_call_step (fs : FS V) (f : Fork V) : FS V × Stage V :=
  match f.stage with
  | .forked =>
    match walk fs [] f.session_dir with
    | none => (fs, .dead)
    | some cwd =>
      match attach_session fs cwd f.call.instance_id f.genv with
      | none => (fs, .dead)
      | some sc => (fs, .attached sc)
  | .attached sc =>
    match evaluate_call R f.call.func_name f.call.string_args sc with
    | none => (fs, .dead)
    | some ev => (fs, .evaluated sc ev)
  | .evaluated sc ev =>
    match walk fs [] f.session_dir with
    | none => (fs, .dead)
    | some cwd =>
      match save_session fs cwd f.call.instance_id ev.scope with
      | (fs', true) => (fs', .saved sc ev)
      | (fs', false) => (fs', .dead)
  | .saved sc ev =>
    match call_output R f.call.func_name ev with
    | none => (fs, .dead)
    | some out =>
      match fork_reply host f.call out with
      | .ok _ fr => (fs, .replied sc ev out fr.out)
      | .error _ _ => (fs, .dead)
  | .replied sc ev out sent => (fs, .replied sc ev out sent)
  | .dead => (fs, .dead)

end

/-! ## A small R

Values are strings, the empty one being NULL; there are `assign`, `get` and
`rm`. -/

def Scope.remove {V : Type} (sc : Scope V) (n : Str) : Scope V :=
  match sc.fresh with
  | none => { sc with genv := update sc.genv n none }
  | some env => { sc with fresh := some (update env n none) }

def small_evaluate (callee : Callee) (args : Args Str) (sc : Scope Str) : Evaluation Str :=
  match callee, args with
  | .name f, [(_, n), (_, v)] =>
    if f = lit "assign" then ⟨sc.assign n v, .ok v, []⟩
    else ⟨sc, .error ⟨lit "could not find function", none⟩, []⟩
  | .name f, [(_, n)] =>
    if f = lit "rm" then ⟨sc.remove n, .ok [], []⟩
    else if f = lit "get" then
      match (sc.fresh.getD fun _ => none) n, sc.genv n with
      | some v, _ => ⟨sc, .ok v, []⟩
      | none, some v => ⟨sc, .ok v, []⟩
      | none, none => ⟨sc, .error ⟨lit "object not found", none⟩, []⟩
    else ⟨sc, .error ⟨lit "could not find function", none⟩, []⟩
  | _, _ => ⟨sc, .error ⟨lit "could not find function", none⟩, []⟩

def quoted (s : Str) : Str := lit "\"" ++ s ++ lit "\""

def small_R : RLib Str where
  is_null v := v == []
  character := some
  string s := s
  fromJSON
    | .string s => s
    | _ => lit "?"
  set_elt v := some [(none, v)]
  toJSON v := if v = [] then some (lit "\x7b\x7d") else some (quoted v)
  serializeJSON := some
  frame _ := none
  vrpc_ns _ := none
  imports _ := none
  base_ns _ := none
  search _ := none
  evaluate := small_evaluate

end VrpcAgent
