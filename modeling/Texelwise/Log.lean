import Texelwise.Text.Basic

/-!
# Log records

What the compiler logs, and the filters that choose which records are shown.
-/

namespace Texelwise

/-- How detailed a log record is. -/
inductive LogLevel where
  | debug
  | trace
  deriving DecidableEq, Repr

/-- One log record. -/
structure LogRecord where
  level : LogLevel
  message : Text
  deriving DecidableEq, Repr

namespace Logging

/-- The filter that holds unless another is named: everything from `info` on, and only warnings
from the graphics layers. -/
def defaultFilter : String := "info,wgpu_core=warn,wgpu_hal=warn,naga=warn"

/-- How a logger is set up. -/
structure Config where
  /-- The filter; without one the choice is left to the environment. -/
  filter : Option String
  deriving DecidableEq, Repr

/-- No filter of its own. -/
def Config.default : Config := ⟨none⟩

/-- Shows every pass of the compiler and the shader text of each program. -/
def Config.shaderTrace : Config :=
  ⟨some (defaultFilter ++ ",tesseract_script=trace,tesseract=trace")⟩

/-- The filter that a logger is set up with, given the one that the environment names. -/
def Config.resolve (config : Config) (environment : Option String) : String :=
  (config.filter.or environment).getD defaultFilter

end Logging

end Texelwise
