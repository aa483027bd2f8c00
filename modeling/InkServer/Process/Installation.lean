import InkServer.Process.Image
import InkServer.Shell.Program

/-!
This module contains the disk of a machine on which nothing but its programs is installed.
-/

namespace InkServer

open Text

def installedPrograms : List String :=
  ["sh", "dash", "bash"] ++ Shell.programs.map Prod.fst ++
  ["env", "kill", "sort", "cut", "grep", "sed", "awk", "tee", "yes", "expr"]

namespace Disk

def placeOf (names : List String) : Location :=
  names.map bytesOf

def installed : Disk where
  nodes :=
    [(placeOf ["tmp"], .folder), (placeOf ["dev"], .folder), (placeOf ["dev", "null"], .sink),
      (placeOf ["usr"], .folder), (placeOf ["usr", "bin"], .folder),
      (placeOf ["bin"], .link (.ofString "usr/bin"))] ++
    installedPrograms.map fun p => (placeOf ["usr", "bin", p], .file (Image.ofProgram p) true)
  current := []

end Disk

end InkServer
