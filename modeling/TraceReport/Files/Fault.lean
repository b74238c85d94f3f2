namespace TraceReport

/-- Why a file could not be opened, read or written. -/
inductive FileFault
  | notFound
  | notADirectory
  | isADirectory
  | nameHasNul
  | nameTooLong
  | notUtf8
  | full
  deriving DecidableEq, Repr

def FileFault.message : FileFault → String
  | .notFound => "No such file or directory (os error 2)"
  | .notADirectory => "Not a directory (os error 20)"
  | .isADirectory => "Is a directory (os error 21)"
  | .nameHasNul => "file name contained an unexpected NUL byte"
  | .nameTooLong => "File name too long (os error 36)"
  | .notUtf8 => "stream did not contain valid UTF-8"
  | .full => "No space left on device (os error 28)"

end TraceReport
