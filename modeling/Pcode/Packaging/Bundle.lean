import Pcode.Packaging.CommandLine
import Pcode.Packaging.Site
import Pcode.Text.Blank
import Pcode.Text.Line

set_option autoImplicit false

/-! # Making a stand-alone program

The compiler is started with the options for this program. A recent interpreter needs the
compiler of C of the system; on Windows it is looked for, and if it is not found and the
compiler fails without it, the program is made with an older interpreter in an environment of
its own. -/

namespace Pcode.Packaging

open Pcode.Text

/-- A text without the blanks around it. -/
def trimmed (s : String) : String := String.ofList (trim s.toList)

/-! ## Finding programs -/

/-- The path of an interpreter that is started by the given words, if it has the version that
is needed. -/
def olderInterpreterFrom (words : List String) : Script (Option String) := do
  let found ← Script.start (words ++ ["-c", "import sys; print(sys.executable)"])
  let path := trimmed found.output
  if found.code != 0 || path == "" then return none
  let version ← Script.start [path, "-c",
    "import sys; print(f'\x7bsys.version_info.major\x7d.\x7bsys.version_info.minor\x7d')"]
  return if version.code == 0 && trimmed version.output == "3.12" then some path else none

/-- The path of an older interpreter. -/
def olderInterpreter (site : Site) : Script (Option String) :=
  let candidates := (if site.isWindows then [["py", "-3.12"]] else []) ++
    [["python3.12"], ["python3"], ["python"]]
  Script.firstOf (candidates.map olderInterpreterFrom)

/-- The file that sets up the compiler of C, in an installation that a search with the given
options names. -/
def compilerSetupFrom (site : Site) (locator : String) (options : List String) :
    Script (Option String) := do
  let found ← Script.start
    ([locator, "-latest", "-products", "*"] ++ options ++ ["-property", "installationPath"])
  if found.code != 0 || found.output == "" then return none
  let base := String.ofList (trim (firstLine (trim found.output.toList)))
  let path := joinPaths base ["VC", "Auxiliary", "Build", "vcvars64.bat"]
  return if site.isFile path then some path else none

/-- The file that sets up the compiler of C: in an installation with the component for C, or
else in any. -/
def compilerSetup (site : Site) : Script (Option String) :=
  let locator := joinPath site.programs "Microsoft Visual Studio\\Installer\\vswhere.exe"
  if site.isFile locator then
    Script.firstOf [
      compilerSetupFrom site locator
        ["-requires", "Microsoft.VisualStudio.Component.VC.Tools.x86.x64"],
      compilerSetupFrom site locator []]
  else pure none

/-! ## Compiling -/

/-- Libraries that the program does not use. -/
def unusedLibraries : List String := [
  "unittest", "test", "doctest", "pydoc", "setuptools", "distutils", "pip", "idlelib",
  "ensurepip", "lib2to3", "tkinter.test", "multiprocessing", "concurrent.futures"]

/-- The options for the icon of the program and for the folder of icons, if they are there. -/
def iconOptions (site : Site) : List String :=
  let icon :=
    if site.isFile (site.path ["icons", "favicon.ico"]) then some "icons/favicon.ico"
    else if site.isFile (site.path ["favicon.ico"]) then some "favicon.ico"
    else none
  (match icon with
    | some path => ["--include-data-files=" ++ path ++ "=favicon.ico"]
    | none => []) ++
    if site.isFolder (site.path ["icons"]) then ["--include-data-dir=icons=icons"] else []

/-- The words that start the compiler; `bundled` chooses the compiler of C that comes with it. -/
def compilerWords (site : Site) (bundled : Bool) : List String :=
  [site.interpreter, "-m", "nuitka", "--standalone", "--assume-yes-for-downloads"] ++
    (if bundled then ["--mingw64"] else if site.isRecent then ["--msvc=latest"] else []) ++
    ["--enable-plugin=tk-inter", "--include-module=ptompy", "--output-dir=build",
      "--output-filename=ptompy.exe", "--windows-console-mode=disable"] ++
    unusedLibraries.map ("--nofollow-import-to=" ++ ·) ++ iconOptions site ++ ["main.py"]

/-- Make the program with an older interpreter in an environment of its own. -/
def bundleWithOlder (site : Site) : Script Unit := do
  match ← olderInterpreter site with
  | none =>
      Script.print ("Python 3.12 not found. Install it (e.g. python.org or pyenv) and ensure " ++
        "'py -3.12' or 'python3.12' works.")
      throw (.exit 1)
  | some interpreter =>
      let folder := site.path [".venv312"]
      unless site.isFolder folder do
        Script.print ("Creating venv with Python 3.12 at " ++ folder)
        Script.mustRun [interpreter, "-m", "venv", folder]
      let inner := joinPaths folder
        (if site.isWindows then ["Scripts", "python.exe"] else ["bin", "python"])
      Script.print "Installing nuitka and Pillow in venv..."
      Script.mustRun [inner, "-m", "pip", "install", "-q", "nuitka", "Pillow"]
      let words := [inner, site.path ["build_nuitka.py"], "--mingw64"]
      Script.print ("Running: " ++ " ".intercalate words)
      Script.mustRun words

/-- Make the program with the compiler of C of a Windows system. -/
def bundleOnWindows (site : Site) (words : List String) : Script Unit := do
  match ← compilerSetup site with
  | some setup =>
      Script.print ("Using Visual Studio environment: " ++ setup)
      Script.mustRun ["cmd", "/c", "call \"" ++ setup ++ "\" && " ++ commandLine words]
  | none =>
      let done ← tryCatch (do Script.mustRun words; pure true) fun stop =>
        match stop with
        | .unsuccessful _ => pure false
        | stop => throw stop
      unless done do
        Script.print "MSVC not found. Using Python 3.12 venv + MinGW64..."
        bundleWithOlder site

/-- Make the stand-alone program. -/
def bundle (site : Site) : Script Unit := do
  if ← Script.takeArgument "--venv-py312" then
    bundleWithOlder site
  else if !site.hasCompiler then
    Script.print "Nuitka is not installed in this environment."
    Script.print "Install it with:  pip install nuitka Pillow"
    Script.print "Or use a dedicated build env:  python build_nuitka.py --venv-py312"
    throw (.exit 1)
  else
    let bundled ← Script.takeArgument "--mingw64"
    if bundled && site.isRecent then
      Script.print ("Warning: MinGW64 is not supported with Python 3.13+. " ++
        "Use Python 3.12 for --mingw64, or install MSVC.")
    let words := compilerWords site bundled
    if site.isWindows && site.isRecent && !bundled then bundleOnWindows site words
    else Script.mustRun words

end Pcode.Packaging
