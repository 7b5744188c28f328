import AdaptiveMesh.Report

/-!
# Command line

Reads a run configuration from a TOML file and prints the report on it.
-/

namespace AdaptiveMesh

set_option autoImplicit false

structure Request where
  path? : Option String
  rank? : Option Nat
  tables : Bool

namespace Request

def usage : List String :=
  ["Builds a block mesh and prints its decomposition and neighbor tables", "",
    "  -c, --config <FILE>  the mesh configuration",
    "  -r, --rank <RANK>    the rank whose topology is built, instead of the configured one",
    "  -t, --tables         prints the neighbor tables of local blocks as well",
    "  -v, --verbose        accepted for more logging; there is none"]

def withRank (request : Request) (text : String) : Option Request :=
  text.toNat?.map fun rank => { request with rank? := some rank }

def ofArgs : List String → Request → Option Request
  | [], request => some request
  | "-c" :: path :: rest, request => ofArgs rest { request with path? := some path }
  | "--config" :: path :: rest, request => ofArgs rest { request with path? := some path }
  | "-r" :: rank :: rest, request => (request.withRank rank).bind (ofArgs rest)
  | "--rank" :: rank :: rest, request => (request.withRank rank).bind (ofArgs rest)
  | arg :: rest, request =>
      if arg = "-t" || arg = "--tables" then ofArgs rest { request with tables := true }
      else if arg = "-v" || arg = "--verbose" then ofArgs rest request
      else none

end Request

def readText (path : String) : IO (Except FileFault String) := do
  try
    return .ok (← IO.FS.readFile path)
  catch
    | .noFileOrDirectory .. => return .error .notFound
    | error => return .error (.other (toString error))

def reportOn (path : String) (request : Request) : IO (Except RunError (List String)) := do
  match ← readText path with
  | .error fault => return .error (.unreadable path fault)
  | .ok source => return Report.ofDocument path source request.rank? request.tables

end AdaptiveMesh

open AdaptiveMesh in
def main (args : List String) : IO UInt32 := do
  let request? := Request.ofArgs args ⟨none, none, false⟩
  match request?, request?.bind Request.path? with
  | some request, some path =>
      match ← reportOn path request with
      | .ok lines =>
          lines.forM IO.println
          return 0
      | .error error =>
          IO.eprintln "Error:"
          error.chain.zipIdx.forM fun (text, index) => IO.eprintln s!"   {index}: {text}"
          return 1
  | _, _ =>
      Request.usage.forM IO.eprintln
      return 2
