/-!
# Platforms

The names of platforms, and where a library built for one of them lies.
-/

namespace SafeIR.Platform

/-- The identifier of a platform, if it is one that libraries are built for. -/
def identifier? (system machine : String) : Option String := do
  let system ← match system with
    | "linux" => some "linux"
    | "macos" => some "osx"
    | "windows" => some "win"
    | _ => none
  let machine ← match machine with
    | "x86_64" => some "x64"
    | "aarch64" => some "arm64"
    | _ => none
  return system ++ "-" ++ machine

/-- The name of the library file for a platform. -/
def libraryFile (identifier : String) : String :=
  if identifier.startsWith "win-" then "irbridge_shim.dll"
  else if identifier.startsWith "osx-" then "libirbridge_shim.dylib"
  else "libirbridge_shim.so"

/-- A path below another; an absolute path stays as it is. -/
def join (path part : String) : String :=
  if part.startsWith "/" then part
  else if path.isEmpty ∨ path.endsWith "/" then path ++ part
  else path ++ "/" ++ part

/-- Where the library for a platform lies below a directory. -/
def libraryPath (base identifier : String) : String :=
  ["runtimes", identifier, "native", libraryFile identifier].foldl join base

end SafeIR.Platform
