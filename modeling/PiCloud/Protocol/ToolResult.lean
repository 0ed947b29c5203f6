import PiCloud.Protocol.ImageAttachment

/-!
# Protocol.ToolResult

The two bodies of a final Tool reply, `tool-result.ts` and `tool-execution-failure.ts`.

* `parsePackedToolResultPayload`: a result whose images are held by reference.
* `parseToolExecutionFailure`: what went wrong around the Tool, and whether it had any effect.
-/

namespace PiCloud
namespace Protocol

open Lib

def isTextPart (m : Members) : Bool :=
  m.onlyKeys ["type", "text"] && isText (m.get "type") "text" && isString (m.get "text")

def isStoredImagePart (m : Members) : Bool :=
  m.onlyKeys ["type", "attachment"] && isText (m.get "type") "pi_cloud_image_v1" &&
    (parseImageAttachmentReference (m.get "attachment")).toOption.isSome

def isDiagnostic (m : Members) : Bool :=
  m.onlyKeys ["severity", "message", "code"] &&
    ["info", "warn", "error"].any (isText (m.get "severity")) && isString (m.get "message") &&
    (!m.has "code" || isString (m.get "code"))

/-- An array of objects of one kind. -/
def isArrayOf (part : Members → Bool) : Field → Bool
  | some (.arr items) => items.all fun
    | .obj m => part m
    | _ => false
  | _ => false

def isPackedResultData (v : Field) : Bool :=
  isObject v && (spread v).onlyKeys ["content", "details", "diagnostics"] &&
    isArrayOf (fun p => isTextPart p || isStoredImagePart p) (at? v "content") &&
    ((at? v "diagnostics").isNone || isArrayOf isDiagnostic (at? v "diagnostics"))

def isBool : Field → Bool
  | some (.bool _) => true
  | _ => false

def isNonEmptyString : Field → Bool
  | some (.str s) => s ≠ []
  | _ => false

def parsePackedToolResultPayload (v : Field) : Except String Field :=
  if isObject v && (spread v).onlyKeys ["toolCallId", "toolName", "result", "isError"] &&
      isNonEmptyString (at? v "toolCallId") && isNonEmptyString (at? v "toolName") &&
      isPackedResultData (at? v "result") && isBool (at? v "isError") then
    .ok v
  else .error "Invalid packed Tool result payload"

inductive Effect where
  | notStarted | unknown
deriving DecidableEq

structure ToolExecutionFailureData where
  code : JsString
  message : JsString
  effect : Effect
deriving DecidableEq

def isLower (u : CodeUnit) : Bool := 0x61 ≤ u && u ≤ 0x7A

/-- `^[a-z][a-z0-9_]*$` -/
def isFailureCode : JsString → Bool
  | [] => false
  | u :: rest => isLower u && rest.all fun u => isLower u || isDigit u || isOneOf "_" u

/-- `size` is the length of a string as the schema library counts it. -/
def parseToolExecutionFailure (size : JsString → Nat) (v : Field) :
    Except String ToolExecutionFailureData :=
  match at? v "code", at? v "message" with
  | some (.str code), some (.str message) =>
    if (spread v).onlyKeys ["code", "message", "effect"] && isFailureCode code && size code ≤ 128 &&
        size message ≤ 4096 then
      if isText (at? v "effect") "not_started" then .ok ⟨code, message, .notStarted⟩
      else if isText (at? v "effect") "unknown" then .ok ⟨code, message, .unknown⟩
      else .error "Invalid Tool execution failure"
    else .error "Invalid Tool execution failure"
  | _, _ => .error "Invalid Tool execution failure"

end Protocol
end PiCloud
