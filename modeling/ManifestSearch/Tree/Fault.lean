/-!
The ways in which the file system refuses a request, and their texts.
-/

namespace ManifestSearch

inductive Fault where
  | notFound
  | denied
  | exists
  | notDirectory
  | isDirectory
  | nameTooLong
  | linkLoop
  | emptyPath
  | nulInPath
  | tooManyFiles
deriving DecidableEq, Inhabited

namespace Fault

def text : Fault → String
  | notFound => "No such file or directory (os error 2)"
  | denied => "Permission denied (os error 13)"
  | .exists => "File exists (os error 17)"
  | notDirectory => "Not a directory (os error 20)"
  | isDirectory => "Is a directory (os error 21)"
  | nameTooLong => "File name too long (os error 36)"
  | linkLoop => "Too many levels of symbolic links (os error 40)"
  | emptyPath => "cannot make an empty path absolute"
  | nulInPath => "file name contained an unexpected NUL byte"
  | tooManyFiles => "too many temporary files exist"

end Fault

end ManifestSearch
