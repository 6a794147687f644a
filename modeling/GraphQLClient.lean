import GraphQLClient.Building.Document
import GraphQLClient.Building.Reporting
import GraphQLClient.Building.Tracker
import GraphQLClient.Client.Client
import GraphQLClient.CommandLine.Run
import GraphQLClient.Decoding.Summary
import GraphQLClient.Http.Exchange
import GraphQLClient.Json.Printer
import GraphQLClient.Json.Reader
import GraphQLClient.Language.Printer
import GraphQLClient.Main
import GraphQLClient.Paging.FollowUp
import GraphQLClient.Schema.Issue
import GraphQLClient.Schema.Load
import GraphQLClient.Text.Utf8
import GraphQLClient.Proofs.Decoding.Connections
import GraphQLClient.Proofs.Client.AllPages
import GraphQLClient.Proofs.Decoding.Repeats
import GraphQLClient.Proofs.Decoding.PageMarks
import GraphQLClient.Proofs.Decoding.Projection
import GraphQLClient.Proofs.Paging.Refetching
import GraphQLClient.Proofs.Building.Documents
import GraphQLClient.Proofs.Building.Stability
import GraphQLClient.Proofs.Building.Specifications
import GraphQLClient.Proofs.Language.OperationText
import GraphQLClient.Proofs.Http.Replies
import GraphQLClient.Proofs.Paging.PageRuns
import GraphQLClient.Proofs.Paging.Refetchable
import GraphQLClient.Proofs.Paging.AnchoredPages
import GraphQLClient.Proofs.Client.LastPage
import GraphQLClient.Proofs.Paging.Roots
import GraphQLClient.Proofs.Client.SentQueries
import GraphQLClient.Proofs.Client.Stages
import GraphQLClient.Proofs.Http.Requests
import GraphQLClient.Proofs.Json.Numerals
import GraphQLClient.Proofs.Json.ReadBack
import GraphQLClient.Proofs.Transport.RequestBody
import GraphQLClient.Proofs.Building.Naming
import GraphQLClient.Proofs.Building.Leftovers
import GraphQLClient.Proofs.Building.Uses
import GraphQLClient.Proofs.Paging.Variables
import GraphQLClient.Proofs.Paging.RecordedPaths
import GraphQLClient.Proofs.Building.UndeclaredVariables
import GraphQLClient.Proofs.Decoding.Conflicts
import GraphQLClient.Proofs.Paging.NodeIds
import GraphQLClient.Proofs.Building.SelfContained
import GraphQLClient.Proofs.Building.Omissions
import GraphQLClient.Proofs.Building.Additions
import GraphQLClient.Proofs.Building.ConnectionShapes
import GraphQLClient.Proofs.Language.TypeGrammar
import GraphQLClient.Proofs.Decoding.ApplicableFragments
import GraphQLClient.Proofs.Decoding.CompositeValues
import GraphQLClient.Proofs.Http.CutOffBodies
import GraphQLClient.Proofs.Http.PlainReplies
import GraphQLClient.Proofs.Http.Addresses
import GraphQLClient.Proofs.Paging.LeadingChains
import GraphQLClient.Proofs.Building.TrackerHistories
