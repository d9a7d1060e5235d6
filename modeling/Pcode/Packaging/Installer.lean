import Pcode.Packaging.Site

set_option autoImplicit false

/-! # Making an installer

The stand-alone program is packed by a compiler for installers, which is looked for in its usual
folders and then among the commands of the system. -/

namespace Pcode.Packaging

/-- The compiler for installers. -/
def installerCompiler (site : Site) : Script (Option String) :=
  let installed := ["Inno Setup 6", "Inno Setup 5"].map fun folder =>
    joinPaths site.programs [folder, "ISCC.exe"]
  match installed.find? site.isFile with
  | some path => pure (some path)
  | none => Script.orAbsent do
      let _ ← Script.start ["iscc", "/?"]
      pure (some "iscc")

/-- Make the installer. -/
def makeInstaller (site : Site) : Script Unit := do
  let bundle := site.path ["build", "main.dist"]
  let plan := site.path ["setup.iss"]
  if !site.isFolder bundle then
    Script.print ("Nuitka build folder not found: " ++ bundle)
    Script.print "Run first:  python build_nuitka.py"
    throw (.exit 1)
  if !site.isFile plan then
    Script.print ("setup.iss not found: " ++ plan)
    throw (.exit 1)
  match ← installerCompiler site with
  | none =>
      Script.print "Inno Setup compiler (ISCC.exe) not found."
      Script.print "Install Inno Setup 6 from: https://jrsoftware.org/isdl.php"
      Script.print ("Or run manually:  " ++
        "\"C:\\Program Files (x86)\\Inno Setup 6\\ISCC.exe\" setup.iss")
      throw (.exit 1)
  | some compiler =>
      Script.print ("Running Inno Setup: " ++ compiler ++ " " ++ plan)
      Script.mustRun [compiler, plan]

end Pcode.Packaging
