/-! File names and their extensions. An extension is what stands behind the last point of a file
name, if something stands in front of that point. -/
namespace WordMachine.CommandLine.Path

def dropClosing : List Char → List Char
  | '/' :: rest => dropClosing rest
  | '.' :: '/' :: rest => dropClosing rest
  | path => path

def split (path : List Char) : List Char × List Char :=
  let path := dropClosing path.reverse
  ((path.dropWhile (· != '/')).reverse, (path.takeWhile (· != '/')).reverse)

def isDirectoryName (name : List Char) : Bool :=
  name = [] || name = ['.'] || name = ['.', '.']

def splitName (name : List Char) : List Char × Option (List Char) :=
  let extension := name.reverse.takeWhile (· != '.') |>.reverse
  let stem := name.take (name.length - extension.length - 1)
  if stem.isEmpty || isDirectoryName name then (name, none) else (stem, some extension)

def extension? (path : List Char) : Option (List Char) :=
  (splitName (split path).2).2

/-- The path with another extension. What is left of it without the old one has to lead to a file
name: `..x` is left as `..` and gets none. -/
def withExtension (path extension : String) : String :=
  let path := path.toList
  let kept := path.take (path.length - ((extension? path).getD []).length)
  let (directory, name) := split kept
  String.ofList <|
    if isDirectoryName name then kept
    else directory ++ (splitName name).1 ++ '.' :: extension.toList

def hasExtension (path extension : String) : Bool :=
  (extension? path.toList).map (·.map Char.toLower) == some extension.toList

end WordMachine.CommandLine.Path
