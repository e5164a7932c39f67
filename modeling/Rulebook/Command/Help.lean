import Rulebook.Command.Arguments

namespace Rulebook.Command

def programName : String := "ruleweave"

def version : String := programName ++ " 0.1.0"

def programAbout : String := "Ruleset-driven game mechanics runtime with sandboxed rule validation"

def helpAbout : String := "Print this message or the help of the given subcommand(s)"

def table (heading : String) (rows : List (String × String)) : List String :=
  let width := (rows.map (·.1.length)).foldl max 0
  heading :: rows.map fun (name, about) =>
    "  " ++ name ++ String.ofList (List.replicate (width - name.length) ' ') ++ "  " ++ about

def placeholder (name : String) : String :=
  "<" ++ String.ofList (name.toList.map Char.toUpper) ++ ">"

def OptionSpec.usage (o : OptionSpec) : String :=
  "--" ++ o.name ++ (if o.value.isSome then " " ++ placeholder o.name else "")

/-- Options without a short name stand as far right as those with one. -/
def OptionSpec.row (o : OptionSpec) : String × String := ("    " ++ o.usage, o.about)

def helpRow : String × String := ("-h, --help", "Print help")

def versionRow : String × String := ("-V, --version", "Print version")

def Shape.usage (sh : Shape) (name : String) : String :=
  " ".intercalate (["Usage:", programName, name, "[OPTIONS]"] ++
    ((sh.options.filter (·.required)).map (·.usage)) ++
    (sh.argument.toList.map fun a => placeholder a.name))

def Topic.page (t : Topic) : List String :=
  let sh := shape t
  let arguments := match sh.argument with
    | some a => table "Arguments:" [(placeholder a.name, a.about)] ++ [""]
    | none => []
  [sh.about, "", sh.usage t.name, ""] ++ arguments ++
    table "Options:" (sh.options.map (·.row) ++ [helpRow])

def Page.lines : Page → List String
  | program =>
    [programAbout, "", "Usage: " ++ programName ++ " [OPTIONS] <COMMAND>", ""] ++
      table "Commands:" (Topic.all.map (fun t => (t.name, (shape t).about)) ++
        [("help", helpAbout)]) ++ [""] ++
      table "Options:" [configOption.row, helpRow, versionRow]
  | topic t => t.page
  | help =>
    [helpAbout, "", "Usage: " ++ programName ++ " help [COMMAND]...", ""] ++
      table "Arguments:" [("[COMMAND]...", "Print help for the subcommand(s)")]

end Rulebook.Command
