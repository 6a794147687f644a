import GraphQLClient.Json.Value
import GraphQLClient.Paging.FollowUp

set_option autoImplicit false

/-!
# Failures of requests

A failure says with its code at which stage of a round trip it arose: before anything was sent, on
the way to the server and back, or in what the server answered.
-/

namespace GraphQLClient

inductive Stage where
  | client
  | transport
  | server
deriving DecidableEq, Repr

inductive FailureCode where
  | buildError
  | noOperation
  | paginationError
  | refetchError
  | invalidUrl
  | httpsNotSupported
  | serializeError
  | connectionRefused
  | networkError
  | timeout
  | httpError
  | invalidResponse
  | deserializeError
  | executionError
  | noData
  | notFound
deriving DecidableEq, Repr, Inhabited

namespace FailureCode

def all : List FailureCode :=
  [.buildError, .noOperation, .paginationError, .refetchError, .invalidUrl, .httpsNotSupported,
    .serializeError, .connectionRefused, .networkError, .timeout, .httpError, .invalidResponse,
    .deserializeError, .executionError, .noData, .notFound]

def text : FailureCode → String
  | .buildError => "BUILD_ERROR"
  | .noOperation => "NO_OPERATION"
  | .paginationError => "PAGINATION_ERROR"
  | .refetchError => "REFETCH_ERROR"
  | .invalidUrl => "INVALID_URL"
  | .httpsNotSupported => "HTTPS_NOT_SUPPORTED"
  | .serializeError => "SERIALIZE_ERROR"
  | .connectionRefused => "CONNECTION_REFUSED"
  | .networkError => "NETWORK_ERROR"
  | .timeout => "TIMEOUT"
  | .httpError => "HTTP_ERROR"
  | .invalidResponse => "INVALID_RESPONSE"
  | .deserializeError => "DESERIALIZE_ERROR"
  | .executionError => "EXECUTION_ERROR"
  | .noData => "NO_DATA"
  | .notFound => "NOT_FOUND"

def ofText? (text : String) : Option FailureCode := all.find? (·.text == text)

def stage : FailureCode → Stage
  | .buildError | .noOperation | .paginationError | .refetchError | .invalidUrl
  | .httpsNotSupported | .serializeError => .client
  | .connectionRefused | .networkError | .timeout | .httpError | .invalidResponse
  | .deserializeError => .transport
  | .executionError | .noData | .notFound => .server

/-- The same request may succeed when it is sent again. -/
def isTransient (code : FailureCode) : Bool :=
  code == .connectionRefused || code == .networkError || code == .timeout

end FailureCode

structure Failure where
  code : FailureCode
  message : String
  /-- Further details, such as the errors of the server or the HTTP status. -/
  extensions : List (String × Json)
  /-- Another error lies underneath this one. -/
  hasCause : Bool
deriving Inhabited

namespace Failure

def new (code : FailureCode) (message : String) : Failure := ⟨code, message, [], false⟩

/-- A failure caused by another error. -/
def caused (code : FailureCode) (message : String) : Failure := ⟨code, message, [], true⟩

def withExtension (failure : Failure) (name : String) (value : Json) : Failure :=
  { failure with extensions := Keyed.insert name value failure.extensions }

def network (message : String) : Failure := new .networkError message

def timedOut : Failure := new .timeout "Request timed out"

def notFound (resource : String) : Failure := new .notFound (resource ++ " not found")

def invalidResponse (message : String) : Failure := new .invalidResponse message

/-- A failure with the text of the error that caused it. -/
def ofError (code : FailureCode) (error : String) : Failure := caused code error

/-- A failure with a message in front of the text of the error that caused it. -/
def ofErrorWith (code : FailureCode) (message error : String) : Failure :=
  caused code (message ++ ": " ++ error)

/-- The failure in one line. -/
def text (failure : Failure) : String := "[" ++ failure.code.text ++ "] " ++ failure.message

def json (failure : Failure) : Json :=
  .obj <| [("code", .str failure.code.text), ("message", .str failure.message)] ++
    if failure.extensions.isEmpty then [] else [("extensions", .obj failure.extensions)]

def ofBuildError (e : BuildError) : Failure := caused .buildError e.message

def ofChoiceError (e : OperationChoiceError) : Failure := caused .noOperation e.message

/-- A model that cannot be fetched again fails so; all other trouble with follow-up queries is
trouble with paging, unless the query cannot be built. -/
def ofModelError (e : ModelError) : Failure :=
  match e with
  | .build e => ofBuildError e
  | .notNodeType _ | .missingNodeId _ | .noNodeField => caused .refetchError e.message
  | .noPagination _ | .emptyConnection | .pathNotFound _ => caused .paginationError e.message

end Failure

end GraphQLClient
