import Stencil.Template.Basic

-- Why a compilation fails, and how failures are worded.

namespace Stencil

-- The kinds of failure, in the order of their codes.
inductive ErrorKind where
  | missingAttribute
  | attributeWithoutTag
  | caseOutsideSwitch
  | defaultOutsideSwitch
  | caseAfterDefault
  | textInsideSwitch
  | selfClosingTemplate
  | stateTagNotSingle
  | stateNameNotBare
  | invalidComponentName
  | dynamicInclude
  | includeFailed
  | includeCycle
  | unsupportedExpression
  | invalidTemplate
  | readFailed
  deriving DecidableEq, Repr

namespace ErrorKind

def name : ErrorKind → String
  | .missingAttribute => "missing-attribute"
  | .attributeWithoutTag => "attribute-without-tag"
  | .caseOutsideSwitch => "case-outside-switch"
  | .defaultOutsideSwitch => "default-outside-switch"
  | .caseAfterDefault => "case-after-default"
  | .textInsideSwitch => "text-inside-switch"
  | .selfClosingTemplate => "self-closing-template"
  | .stateTagNotSingle => "state-tag-not-single"
  | .stateNameNotBare => "state-name-not-bare"
  | .invalidComponentName => "invalid-component-name"
  | .dynamicInclude => "dynamic-include"
  | .includeFailed => "include-failed"
  | .includeCycle => "include-cycle"
  | .unsupportedExpression => "unsupported-expression"
  | .invalidTemplate => "invalid-ast"
  | .readFailed => "read-failed"

def code : ErrorKind → String
  | .missingAttribute => "MPC001"
  | .attributeWithoutTag => "MPC002"
  | .caseOutsideSwitch => "MPC003"
  | .defaultOutsideSwitch => "MPC004"
  | .caseAfterDefault => "MPC005"
  | .textInsideSwitch => "MPC006"
  | .selfClosingTemplate => "MPC007"
  | .stateTagNotSingle => "MPC008"
  | .stateNameNotBare => "MPC009"
  | .invalidComponentName => "MPC010"
  | .dynamicInclude => "MPC011"
  | .includeFailed => "MPC012"
  | .includeCycle => "MPC013"
  | .unsupportedExpression => "MPC014"
  | .invalidTemplate => "MPC015"
  | .readFailed => "MPC016"

def all : List ErrorKind :=
  [.missingAttribute, .attributeWithoutTag, .caseOutsideSwitch, .defaultOutsideSwitch, .caseAfterDefault,
    .textInsideSwitch, .selfClosingTemplate, .stateTagNotSingle, .stateNameNotBare, .invalidComponentName,
    .dynamicInclude, .includeFailed, .includeCycle, .unsupportedExpression, .invalidTemplate, .readFailed]

def ofName? (name : String) : Option ErrorKind := all.find? fun kind => kind.name = name

theorem ofName?_name (kind : ErrorKind) : ofName? kind.name = some kind := by cases kind <;> decide

end ErrorKind

-- Why a template could not be loaded: its file could not be read, or its text is no template.
inductive Fault where
  | unreadable (reason : String)
  | malformed
  deriving DecidableEq, Repr

def Fault.message : Fault → String
  | .unreadable reason => "failed to read template: " ++ reason
  | .malformed => "invalid template AST"

inductive Cause where
  | missingAttribute (tag attr : String)
  | attributeWithoutTag
  | appliedAttributeOutside
  | caseOutsideSwitch
  | defaultOutsideSwitch
  | caseAfterDefault
  | textInsideSwitch
  | selfClosingTemplate
  | stateTagNotSingle
  | stateNameNotBare
  | invalidComponentName
  | dynamicInclude
  | includeFailed (path : String) (fault : Fault)
  | includeCycle (path : String)
  | unsupportedExpression
  | template (fault : Fault)
  deriving DecidableEq, Repr

namespace Cause

def kind : Cause → ErrorKind
  | .missingAttribute _ _ => .missingAttribute
  | .attributeWithoutTag => .attributeWithoutTag
  | .appliedAttributeOutside => .attributeWithoutTag
  | .caseOutsideSwitch => .caseOutsideSwitch
  | .defaultOutsideSwitch => .defaultOutsideSwitch
  | .caseAfterDefault => .caseAfterDefault
  | .textInsideSwitch => .textInsideSwitch
  | .selfClosingTemplate => .selfClosingTemplate
  | .stateTagNotSingle => .stateTagNotSingle
  | .stateNameNotBare => .stateNameNotBare
  | .invalidComponentName => .invalidComponentName
  | .dynamicInclude => .dynamicInclude
  | .includeFailed _ _ => .includeFailed
  | .includeCycle _ => .includeCycle
  | .unsupportedExpression => .unsupportedExpression
  | .template (.unreadable _) => .readFailed
  | .template .malformed => .invalidTemplate

def message : Cause → String
  | .missingAttribute tag attr => "<" ++ tag ++ "> must contain `" ++ attr ++ "` attribute"
  | .attributeWithoutTag => "there is no tag which <attribute> can be applied to"
  | .appliedAttributeOutside => "<apply-attribute> is only valid inside an attribute fragment"
  | .caseOutsideSwitch => "<case> must be a direct child of <switch>"
  | .defaultOutsideSwitch => "<default> must be a direct child of <switch>"
  | .caseAfterDefault => "<case> must not be placed after <default>"
  | .textInsideSwitch => "text must not be placed inside <switch>"
  | .selfClosingTemplate => "<template> must not be a self-closing tag"
  | .stateTagNotSingle => "<use-state> must be a self-closing tag"
  | .stateNameNotBare => "<use-state> name must be a bare variable"
  | .invalidComponentName => "component name must be a literal string containing a dash (`-`)"
  | .dynamicInclude => "<include> path must be a literal string"
  | .includeFailed path fault => "failed to include " ++ path ++ ": " ++ fault.message
  | .includeCycle path => "include cycle through " ++ path
  | .unsupportedExpression => "unsupported expression"
  | .template fault => fault.message

end Cause

-- A failure as it is reported.
structure Diagnostic where
  kind : ErrorKind
  message : String
  file : String
  location : Location

namespace Diagnostic

def code (d : Diagnostic) : String := d.kind.code

def text (d : Diagnostic) : String :=
  d.file ++ ":" ++ toString d.location.line.toNat ++ ":" ++ toString d.location.column.toNat ++ ": " ++
    d.message ++ " [" ++ d.code ++ "]"

end Diagnostic

-- A failed compilation: the cause, the file being compiled, and the place of the node at fault.
structure CompileError where
  cause : Cause
  file : String
  location : Location
  deriving DecidableEq, Repr

def CompileError.diagnostic (e : CompileError) : Diagnostic :=
  ⟨e.cause.kind, e.cause.message, e.file, e.location⟩

end Stencil
